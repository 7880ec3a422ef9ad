/-
# Lexical rules

Patterns of the kind that lexical rules are made of, over characters: classes, runs of a
class, optional characters and sequences.  `Matches` is the language of a pattern, and
`longest` the length of the longest match at the beginning of a text, which is what a
regular expression search reports of a match there.  Of several rules the first one that
matches is taken (`firstMatch`).

The lemmas of the second half compute the longest match of the usual rules from the text
they are written for and the character after it.
-/
import Mathlib.Data.List.Basic
import Mathlib.Order.Lattice.Nat

namespace Lexer

/-! ## Patterns -/

/-- The regular expressions of the rules. -/
inductive Pattern
  | empty
  | one (p : Char → Bool)
  | opt (p : Char → Bool)
  | many1 (p : Char → Bool)
  | seq (x y : Pattern)

/-- A fixed text. -/
def Pattern.lit : List Char → Pattern
  | [] => .empty
  | c :: w => .seq (.one (· == c)) (lit w)

/-- The words of a pattern. -/
inductive Matches : Pattern → List Char → Prop
  | empty : Matches .empty []
  | one {p : Char → Bool} {c : Char} (h : p c = true) : Matches (.one p) [c]
  | skip {p : Char → Bool} : Matches (.opt p) []
  | take {p : Char → Bool} {c : Char} (h : p c = true) : Matches (.opt p) [c]
  | many1 {p : Char → Bool} {w : List Char} (hw : w ≠ []) (h : ∀ c ∈ w, p c = true) :
      Matches (.many1 p) w
  | seq {x y : Pattern} {u v : List Char} (hx : Matches x u) (hy : Matches y v) :
      Matches (.seq x y) (u ++ v)

/-! ## The longest match -/

/-- The lengths of the beginnings of a text that are runs of a class. -/
def runs (p : Char → Bool) : List Char → List ℕ
  | [] => []
  | c :: s => if p c then 1 :: (runs p s).map (1 + ·) else []

/-- The lengths of the beginnings of a text that match. -/
def ends : Pattern → List Char → List ℕ
  | .empty, _ => [0]
  | .one p, s => ((s.head?.filter p).map fun _ => 1).toList
  | .opt p, s => 0 :: ((s.head?.filter p).map fun _ => 1).toList
  | .many1 p, s => runs p s
  | .seq x y, s => (ends x s).flatMap fun n => (ends y (s.drop n)).map (n + ·)

/-- The length of the longest match at the beginning of a text. -/
def longest (x : Pattern) (s : List Char) : Option ℕ := (ends x s).max?

variable {p q : Char → Bool} {x y : Pattern} {s r w : List Char} {n : ℕ} {c : Char}

/-- The runs of a class are the prefixes that consist of it. -/
theorem mem_runs_iff : n ∈ runs p s ↔
    ∃ w r, s = w ++ r ∧ w.length = n ∧ w ≠ [] ∧ ∀ c ∈ w, p c = true := by
  induction s generalizing n with
  | nil =>
      constructor
      · intro h
        cases h
      · rintro ⟨w, r, heq, -, hw, -⟩
        exact absurd (List.append_eq_nil_iff.mp heq.symm).1 hw
  | cons c s ih =>
      rw [runs]
      constructor
      · intro h
        by_cases hc : p c = true
        · rw [if_pos hc, List.mem_cons, List.mem_map] at h
          rcases h with rfl | ⟨m, hm, rfl⟩
          · exact ⟨[c], s, rfl, rfl, by simp, by simpa using hc⟩
          · obtain ⟨w, r, rfl, rfl, -, hall⟩ := ih.mp hm
            exact ⟨c :: w, r, rfl, by rw [List.length_cons, Nat.add_comm], by simp,
              List.forall_mem_cons.mpr ⟨hc, hall⟩⟩
        · rw [if_neg hc] at h
          cases h
      · rintro ⟨w, r, heq, rfl, hw, hall⟩
        cases w with
        | nil => exact absurd rfl hw
        | cons d w =>
            obtain ⟨rfl, rfl⟩ := List.cons.inj heq
            rw [List.forall_mem_cons] at hall
            rw [if_pos hall.1, List.mem_cons]
            cases w with
            | nil => exact Or.inl rfl
            | cons e w =>
                refine Or.inr (List.mem_map.mpr ⟨(e :: w).length, ?_, ?_⟩)
                · exact ih.mpr ⟨e :: w, r, rfl, rfl, by simp, hall.2⟩
                · rw [List.length_cons (a := c), Nat.add_comm]

/-- The beginnings that are one character of a class. -/
theorem mem_head_iff : n ∈ ((s.head?.filter p).map fun _ => 1).toList ↔
    ∃ c r, s = c :: r ∧ n = 1 ∧ p c = true := by
  cases s with
  | nil => simp
  | cons c s =>
      by_cases hc : p c = true
      · simp only [List.head?_cons, Option.filter, if_pos hc, Option.map_some,
          Option.toList_some, List.mem_singleton]
        constructor
        · rintro rfl
          exact ⟨c, s, rfl, rfl, hc⟩
        · rintro ⟨d, r, -, rfl, -⟩
          rfl
      · simp only [List.head?_cons, Option.filter, if_neg hc, Option.map_none,
          Option.toList_none, List.not_mem_nil, false_iff]
        rintro ⟨d, r, heq, -, hd⟩
        obtain ⟨rfl, -⟩ := List.cons.inj heq
        exact hc hd

/-- The matches found are the beginnings in the language. -/
theorem mem_ends_iff : n ∈ ends x s ↔ ∃ w r, s = w ++ r ∧ w.length = n ∧ Matches x w := by
  induction x generalizing s n with
  | empty =>
      rw [ends, List.mem_singleton]
      constructor
      · rintro rfl
        exact ⟨[], s, rfl, rfl, .empty⟩
      · rintro ⟨w, r, -, rfl, hm⟩
        cases hm
        rfl
  | one p =>
      rw [ends, mem_head_iff]
      constructor
      · rintro ⟨c, r, rfl, rfl, hc⟩
        exact ⟨[c], r, rfl, rfl, .one hc⟩
      · rintro ⟨w, r, rfl, rfl, hm⟩
        cases hm with
        | one hc => exact ⟨_, r, rfl, rfl, hc⟩
  | opt p =>
      rw [ends, List.mem_cons, mem_head_iff]
      constructor
      · rintro (rfl | ⟨c, r, rfl, rfl, hc⟩)
        · exact ⟨[], s, rfl, rfl, .skip⟩
        · exact ⟨[c], r, rfl, rfl, .take hc⟩
      · rintro ⟨w, r, rfl, rfl, hm⟩
        cases hm with
        | skip => exact Or.inl rfl
        | take hc => exact Or.inr ⟨_, r, rfl, rfl, hc⟩
  | many1 p =>
      rw [ends, mem_runs_iff]
      constructor
      · rintro ⟨w, r, heq, hlen, hw, hall⟩
        exact ⟨w, r, heq, hlen, .many1 hw hall⟩
      · rintro ⟨w, r, heq, hlen, hm⟩
        cases hm with
        | many1 hw hall => exact ⟨w, r, heq, hlen, hw, hall⟩
  | seq x y ihx ihy =>
      rw [ends, List.mem_flatMap]
      constructor
      · rintro ⟨m, hm, hn⟩
        obtain ⟨k, hk, rfl⟩ := List.mem_map.mp hn
        obtain ⟨u, t, rfl, rfl, hu⟩ := ihx.mp hm
        rw [List.drop_left] at hk
        obtain ⟨v, r, rfl, rfl, hv⟩ := ihy.mp hk
        exact ⟨u ++ v, r, (List.append_assoc ..).symm, List.length_append, .seq hu hv⟩
      · rintro ⟨w, r, rfl, rfl, hm⟩
        cases hm with
        | @seq _ _ u v hu hv =>
            refine ⟨u.length, ihx.mpr ⟨u, v ++ r, List.append_assoc .., rfl, hu⟩,
              List.mem_map.mpr ⟨v.length, ?_, List.length_append.symm⟩⟩
            rw [List.append_assoc, List.drop_left]
            exact ihy.mpr ⟨v, r, rfl, rfl, hv⟩

/-- **The longest match.** -/
theorem longest_eq_some_iff : longest x s = some n ↔
    (∃ w r, s = w ++ r ∧ w.length = n ∧ Matches x w) ∧
      ∀ w r, s = w ++ r → Matches x w → w.length ≤ n := by
  rw [longest, List.max?_eq_some_iff, mem_ends_iff]
  refine and_congr_right fun _ => ⟨fun h w r heq hm => ?_, fun h m hmem => ?_⟩
  · exact h _ (mem_ends_iff.mpr ⟨w, r, heq, rfl, hm⟩)
  · obtain ⟨w, r, heq, rfl, hm⟩ := mem_ends_iff.mp hmem
    exact h w r heq hm

/-- Nothing is found if no prefix matches. -/
theorem longest_eq_none_iff :
    longest x s = none ↔ ∀ w r, s = w ++ r → ¬ Matches x w := by
  rw [longest, List.max?_eq_none_iff, List.eq_nil_iff_forall_not_mem]
  constructor
  · intro h w r heq hm
    exact h w.length (mem_ends_iff.mpr ⟨w, r, heq, rfl, hm⟩)
  · intro h m hmem
    obtain ⟨w, r, heq, -, hm⟩ := mem_ends_iff.mp hmem
    exact h w r heq hm

/-- A pattern without the empty word consumes a character. -/
theorem longest_pos (h : longest x s = some n) (hx : ¬ Matches x []) : 0 < n := by
  obtain ⟨⟨w, r, -, rfl, hm⟩, -⟩ := longest_eq_some_iff.mp h
  refine List.length_pos_iff.mpr ?_
  rintro rfl
  exact hx hm

/-- A pattern that begins with a character does not match the empty text. -/
theorem not_matches_one_seq_nil : ¬ Matches (.seq (.one p) y) [] := by
  generalize hw : ([] : List Char) = w
  intro h
  cases h with
  | seq hx _ =>
      cases hx with
      | one => cases hw

/-- A repetition does not match the empty text. -/
theorem not_matches_many1_nil : ¬ Matches (.many1 p) [] := by
  intro h
  cases h with
  | many1 hne _ => exact hne rfl

/-- A repetition with something after it does not match the empty text. -/
theorem not_matches_many1_seq_nil : ¬ Matches (.seq (.many1 p) y) [] := by
  generalize hw : ([] : List Char) = w
  intro h
  cases h with
  | @seq _ _ u v hx _ =>
      obtain ⟨rfl, -⟩ := List.append_eq_nil_iff.mp hw.symm
      exact not_matches_many1_nil hx

/-! ## The usual rules -/

/-- The first character of a sequence decides. -/
theorem longest_one_seq : longest (.seq (.one p) y) (c :: s) =
    if p c then (longest y s).map (1 + ·) else none := by
  by_cases hc : p c = true
  · rw [if_pos hc]
    have hends : ends (.seq (.one p) y) (c :: s) = (ends y s).map (1 + ·) := by
      simp [ends, Option.filter, hc]
    rw [longest, hends, longest]
    cases h : (ends y s).max? with
    | none => rw [List.max?_eq_none_iff.mp h]; rfl
    | some n =>
        rw [List.max?_eq_some_iff] at h
        refine List.max?_eq_some_iff.mpr ⟨List.mem_map.mpr ⟨n, h.1, rfl⟩, fun m hm => ?_⟩
        obtain ⟨k, hk, rfl⟩ := List.mem_map.mp hm
        exact Nat.add_le_add_left (h.2 k hk) 1
  · rw [if_neg hc]
    have hends : ends (.seq (.one p) y) (c :: s) = [] := by
      simp [ends, Option.filter, hc]
    rw [longest, hends]
    rfl

/-- A literal matches itself. -/
theorem matches_lit_iff : Matches (.lit w) r ↔ r = w := by
  induction w generalizing r with
  | nil =>
      constructor
      · intro h
        cases h
        rfl
      · rintro rfl
        exact .empty
  | cons c w ih =>
      constructor
      · intro h
        cases h with
        | seq hu hv =>
            cases hu with
            | one hc =>
                rw [ih.mp hv, beq_iff_eq.mp hc]
                rfl
      · rintro rfl
        exact .seq (u := [c]) (.one (beq_self_eq_true c)) (ih.mpr rfl)

/-- A fixed text matches where it is. -/
theorem longest_lit : longest (.lit w) s = if w.isPrefixOf s then some w.length else none := by
  by_cases h : w.isPrefixOf s = true
  · rw [if_pos h]
    obtain ⟨r, rfl⟩ := List.isPrefixOf_iff_prefix.mp h
    refine longest_eq_some_iff.mpr ⟨⟨w, r, rfl, rfl, matches_lit_iff.mpr rfl⟩, ?_⟩
    intro w' r' _ hm
    rw [matches_lit_iff.mp hm]
  · rw [if_neg h]
    refine longest_eq_none_iff.mpr fun w' r' heq hm => h ?_
    rw [heq, matches_lit_iff.mp hm]
    exact List.isPrefixOf_iff_prefix.mpr (List.prefix_append ..)

/-- A run at the beginning of a text stays before a character that is not of the class. -/
theorem run_within {u t : List Char} (hu : ∀ c ∈ u, p c = true)
    (hr : ∀ c ∈ r.head?, p c = false) (heq : w ++ r = u ++ t) : ∃ u', w = u ++ u' := by
  rcases List.append_eq_append_iff.mp heq with ⟨u', rfl, rfl⟩ | ⟨u', rfl, -⟩
  · cases u' with
    | nil => exact ⟨[], by simp⟩
    | cons d u' =>
        have hyes := hu d (by simp)
        rw [hr d (by simp)] at hyes
        exact absurd hyes (by decide)
  · exact ⟨u', rfl⟩

/-- A run ends where the class does. -/
theorem longest_many1 (hw : w ≠ []) (hp : ∀ c ∈ w, p c = true)
    (hr : ∀ c ∈ r.head?, p c = false) : longest (.many1 p) (w ++ r) = some w.length := by
  refine longest_eq_some_iff.mpr ⟨⟨w, r, rfl, rfl, .many1 hw hp⟩, ?_⟩
  rintro w' r' heq hm
  cases hm with
  | many1 hw' hp' =>
      obtain ⟨u, rfl⟩ := run_within hp' hr heq
      rw [List.length_append]
      omega

/-- A repetition takes nothing where its class does not begin. -/
theorem longest_many1_none (h : ∀ c ∈ s.head?, p c = false) : longest (.many1 p) s = none := by
  refine longest_eq_none_iff.mpr fun w r heq hm => ?_
  cases hm with
  | many1 hw hp =>
      cases w with
      | nil => exact hw rfl
      | cons c w =>
          have hno := h c (by rw [heq]; rfl)
          rw [hp c (by simp)] at hno
          exact absurd hno (by decide)

/-- A run with an optional character of another class behind it. -/
theorem longest_many1_opt {v : List Char} (hw : w ≠ []) (hp : ∀ c ∈ w, p c = true)
    (hv : v = [] ∨ ∃ c, v = [c] ∧ q c = true) (hpq : ∀ c, q c = true → p c = false)
    (hr : ∀ c ∈ r.head?, p c = false ∧ q c = false) :
    longest (.seq (.many1 p) (.opt q)) (w ++ v ++ r) = some (w ++ v).length := by
  have hopt : Matches (.opt q) v := by
    rcases hv with rfl | ⟨c, rfl, hc⟩
    · exact .skip
    · exact .take hc
  refine longest_eq_some_iff.mpr ⟨⟨w ++ v, r, rfl, rfl, .seq (.many1 hw hp) hopt⟩, ?_⟩
  have hstop : ∀ c ∈ (v ++ r).head?, p c = false := by
    rcases hv with rfl | ⟨c, rfl, hc⟩
    · exact fun c hc => (hr c hc).1
    · rintro d hd
      cases hd
      exact hpq c hc
  rintro w' r' heq hm
  cases hm with
  | @seq _ _ a b ha hb =>
      cases ha with
      | many1 hane hall =>
          rw [List.append_assoc, List.append_assoc] at heq
          obtain ⟨u', rfl⟩ := run_within hall hstop heq
          have hb1 : b.length ≤ 1 := by cases hb <;> simp
          simp only [List.length_append]
          cases u' with
          | cons d u' =>
              simp only [List.length_cons]
              omega
          | nil =>
              -- the run is `w`: what is optional is the character behind it
              rw [List.append_nil] at heq
              have htail := List.append_cancel_left heq
              cases hb with
              | skip => simp
              | @take _ c hc =>
                  rcases hv with rfl | ⟨d, rfl, -⟩
                  · have hno := (hr c (by rw [show r = [c] ++ r' from htail]; rfl)).2
                    rw [hc] at hno
                    exact absurd hno (by decide)
                  · simp

/-- A repetition with something after it takes nothing where its class does not begin. -/
theorem longest_many1_seq_none (h : ∀ c ∈ s.head?, p c = false) :
    longest (.seq (.many1 p) y) s = none := by
  refine longest_eq_none_iff.mpr fun w r heq hm => ?_
  cases hm with
  | @seq _ _ u v hu _ =>
      have hnone := longest_eq_none_iff.mp (longest_many1_none h) u (v ++ r)
      exact hnone (by rw [heq, List.append_assoc]) hu

/-! ## Rules -/

/-- A rule: what is matched, and what it is the text of. -/
structure Rule (τ : Type*) where
  pattern : Pattern
  type : τ

/-- The first rule that matches, with the length of its longest match. -/
def firstMatch {τ : Type*} (rules : List (Rule τ)) (s : List Char) : Option (τ × ℕ) :=
  rules.findSome? fun rule => (longest rule.pattern s).map fun n => (rule.type, n)

variable {τ : Type*} {rules rules' : List (Rule τ)} {rule : Rule τ}

/-- The first rule that takes something is the one that matches. -/
theorem firstMatch_of_longest (h : longest rule.pattern s = some n) :
    firstMatch (rule :: rules) s = some (rule.type, n) := by
  rw [firstMatch, List.findSome?_cons, h]
  rfl

/-- A rule that takes nothing is left out. -/
theorem firstMatch_cons_none (h : longest rule.pattern s = none) :
    firstMatch (rule :: rules) s = firstMatch rules s := by
  rw [firstMatch, List.findSome?_cons, h]
  rfl

/-- Rules that do not match are passed over. -/
theorem firstMatch_append (h : ∀ rule ∈ rules, longest rule.pattern s = none) :
    firstMatch (rules ++ rules') s = firstMatch rules' s := by
  induction rules with
  | nil => rfl
  | cons rule rules ih =>
      rw [List.forall_mem_cons] at h
      rw [List.cons_append, firstMatch_cons_none h.1, ih h.2]

/-- What matches is one of the rules. -/
theorem exists_of_firstMatch {t : τ} (h : firstMatch rules s = some (t, n)) :
    ∃ rule ∈ rules, rule.type = t ∧ longest rule.pattern s = some n := by
  obtain ⟨rule, hmem, hrule⟩ := List.exists_of_findSome?_eq_some h
  obtain ⟨m, hm, heq⟩ := Option.map_eq_some_iff.mp hrule
  cases heq
  exact ⟨rule, hmem, rfl, hm⟩

end Lexer
