import QueryAccess.DropRule.Operator
import QueryAccess.Proofs.Numeric.Order

/-!
# The order that operators share

All six operators rest on one partial comparison. `QueryAccess.Json.Compared` says what that
comparison *is*, without saying how it is found: null is equal to null, truth values and
strings have their own orders, and numbers are compared by one of two methods – as integers if
both are signed 64-bit ones, by their places among the doubles otherwise.
`QueryAccess.Json.compare?_eq_some_iff` is soundness and completeness of the comparison.

**Transitivity.** The method is chosen pair by pair, so a chain of two comparisons may use
both. What holds them together is that the nearest double of an integer is monotone in the
integer (`QueryAccess.Json.Compared.key_le`): a comparison never goes against the order of the
doubles, and one that is made among the doubles is strict there. If both ends of the chain are
signed integers, monotonicity read backwards gives their order.

**Integers.** The comparison of two integers is that of their values as long as both are signed,
and also beyond, *unless* they have their nearest double in common
(`QueryAccess.Json.Indistinct`): these are then equal for all operators.
-/

namespace QueryAccess

namespace Json

/-! ### Kinds -/

/-- The kinds of values that have an order. -/
inductive Kind where
  | null
  | bool
  | number
  | string
deriving DecidableEq, Repr

/-- The kind of a value; arrays and objects have none. -/
def kind? : Json → Option Kind
  | .null => some .null
  | .bool _ => some .bool
  | .int _ | .float _ => some .number
  | .string _ => some .string
  | .array _ | .object _ => none

/-- Two values of one kind. -/
def SameKind (a b : Json) : Prop := a.kind?.isSome = true ∧ a.kind? = b.kind?

/-- The integer that a value is, if it is a signed 64-bit one. -/
def signed? : Json → Option Int
  | .int n => if isSigned n then some n else none
  | _ => none

section Numbers

variable {a b : Json} {k l m n : Int}

theorem signed?_eq_some_iff : a.signed? = some m ↔ a = .int m ∧ isSigned m = true := by
  cases a with
  | int n =>
    rw [signed?, Option.ite_none_right_eq_some, Option.some.injEq, Json.int.injEq]
    constructor
    · rintro ⟨hsigned, rfl⟩
      exact ⟨rfl, hsigned⟩
    · rintro ⟨rfl, hsigned⟩
      exact ⟨hsigned, rfl⟩
  | _ => simp [signed?]

theorem kind?_eq_null_iff : a.kind? = some .null ↔ a = .null := by
  cases a <;> simp [kind?]

theorem kind?_eq_bool_iff : a.kind? = some .bool ↔ ∃ p, a = .bool p := by
  cases a <;> simp [kind?]

theorem kind?_eq_string_iff : a.kind? = some .string ↔ ∃ s, a = .string s := by
  cases a <;> simp [kind?]

/-- The numbers are the values with a place among the doubles. -/
theorem kind?_eq_number_iff : a.kind? = some .number ↔ ∃ k, a.key? = some k := by
  cases a <;> simp [kind?, key?]

theorem key?_of_signed? (ha : a.signed? = some m) : a.key? = some (Binary64.keyOfInt m) := by
  obtain ⟨rfl, -⟩ := signed?_eq_some_iff.1 ha
  rfl

theorem compareNumbers?_signed (ha : a.signed? = some m) (hb : b.signed? = some n) :
    compareNumbers? a b = some (compare m n) := by
  obtain ⟨rfl, hm⟩ := signed?_eq_some_iff.1 ha
  obtain ⟨rfl, hn⟩ := signed?_eq_some_iff.1 hb
  simp [compareNumbers?, hm, hn]

theorem compareNumbers?_rounded (h : a.signed? = none ∨ b.signed? = none) :
    compareNumbers? a b = a.key?.bind fun k => b.key?.map (compare k) := by
  cases a with
  | int m =>
    cases b with
    | int n =>
      have hnot : ¬(isSigned m = true ∧ isSigned n = true) := by
        simpa [signed?, imp_iff_not_or] using h
      simp [compareNumbers?, key?, hnot]
    | _ => rfl
  | _ => cases b <;> rfl

/-- Values with a place among the doubles are compared as numbers. -/
theorem compare?_of_key? (ha : a.key? = some k) : a.compare? b = compareNumbers? a b := by
  cases a with
  | int m => cases b <;> rfl
  | float x => cases b <;> rfl
  | _ => cases ha

end Numbers

/-! ### The comparison -/

/-- **What the order of two values is.** -/
inductive Compared : Json → Json → Ordering → Prop
  | null : Compared .null .null .eq
  | bool (p q : Bool) : Compared (.bool p) (.bool q) (compare p q)
  | string (s t : String) : Compared (.string s) (.string t) (compare s t)
  | signed {a b : Json} {m n : Int} (ha : a.signed? = some m) (hb : b.signed? = some n) :
    Compared a b (compare m n)
  | rounded {a b : Json} {k l : Int} (h : a.signed? = none ∨ b.signed? = none)
    (ha : a.key? = some k) (hb : b.key? = some l) : Compared a b (compare k l)

section Comparison

variable {a b : Json} {order : Ordering}

/-- Two values are both signed integers, or the comparison of numbers rounds. -/
theorem signed_or_rounded (a b : Json) :
    (∃ m n, a.signed? = some m ∧ b.signed? = some n) ∨ a.signed? = none ∨ b.signed? = none := by
  cases a.signed? <;> cases b.signed? <;> simp

theorem compareNumbers?_eq_some (h : compareNumbers? a b = some order) : Compared a b order := by
  rcases signed_or_rounded a b with ⟨m, n, ha, hb⟩ | hrounded
  · rw [compareNumbers?_signed ha hb, Option.some.injEq] at h
    exact h ▸ .signed ha hb
  · rw [compareNumbers?_rounded hrounded, Option.bind_eq_some_iff] at h
    obtain ⟨k, ha, h⟩ := h
    obtain ⟨l, hb, rfl⟩ := Option.map_eq_some_iff.1 h
    exact .rounded hrounded ha hb

/-- **The comparison finds the order** of two values, where they have one. -/
theorem compare?_eq_some_iff : a.compare? b = some order ↔ Compared a b order := by
  constructor
  · intro h
    rw [compare?.eq_def] at h
    split at h
    · exact Option.some.inj h ▸ .null
    · exact Option.some.inj h ▸ .bool _ _
    · exact Option.some.inj h ▸ .string _ _
    · exact compareNumbers?_eq_some h
  · intro h
    cases h with
    | null => rfl
    | bool p q => rfl
    | string s t => rfl
    | signed ha hb => rw [compare?_of_key? (key?_of_signed? ha), compareNumbers?_signed ha hb]
    | rounded h ha hb =>
      rw [compare?_of_key? ha, compareNumbers?_rounded h, ha, hb]
      rfl

end Comparison

namespace Compared

variable {a b c : Json} {order order' : Ordering} {k l : Int}

/-- Two values have one order at most. -/
theorem unique (h : Compared a b order) (h' : Compared a b order') : order = order' := by
  rw [← compare?_eq_some_iff] at h h'
  exact Option.some.inj (h.symm.trans h')

/-- The order of two values, read from the other side. -/
theorem swap (h : Compared a b order) : Compared b a order.swap := by
  cases h with
  | null => exact .null
  | bool p q =>
    rw [← Std.OrientedOrd.eq_swap]
    exact .bool q p
  | string s t =>
    rw [← Std.OrientedOrd.eq_swap]
    exact .string t s
  | signed ha hb =>
    rw [← Std.OrientedOrd.eq_swap]
    exact .signed hb ha
  | rounded h ha hb =>
    rw [← Std.OrientedOrd.eq_swap]
    exact .rounded h.symm hb ha

theorem swap_iff (order : Ordering) : Compared a b order.swap ↔ Compared b a order :=
  ⟨fun h => Ordering.swap_swap (o := order) ▸ h.swap, fun h => h.swap⟩

theorem of_key? (ha : a.key? = some k) (hb : b.key? = some l) : ∃ order, Compared a b order := by
  rcases signed_or_rounded a b with ⟨m, n, hm, hn⟩ | hrounded
  · exact ⟨_, .signed hm hn⟩
  · exact ⟨_, .rounded hrounded ha hb⟩

/-- Values have an order exactly if they are of one kind. -/
theorem exists_iff_sameKind : (∃ order, Compared a b order) ↔ SameKind a b := by
  constructor
  · have hnumbers : ∀ {a b : Json} {k l : Int}, a.key? = some k → b.key? = some l →
        SameKind a b := by
      intro a b k l ha hb
      have hkind := kind?_eq_number_iff.2 ⟨k, ha⟩
      exact ⟨hkind ▸ rfl, hkind.trans (kind?_eq_number_iff.2 ⟨l, hb⟩).symm⟩
    rintro ⟨order, h⟩
    cases h with
    | null | bool | string => exact ⟨rfl, rfl⟩
    | signed ha hb => exact hnumbers (key?_of_signed? ha) (key?_of_signed? hb)
    | rounded _ ha hb => exact hnumbers ha hb
  · rintro ⟨hsome, hsame⟩
    obtain ⟨kind, ha⟩ := Option.isSome_iff_exists.1 hsome
    have hb := hsame.symm.trans ha
    cases kind with
    | null =>
      obtain rfl := kind?_eq_null_iff.1 ha
      obtain rfl := kind?_eq_null_iff.1 hb
      exact ⟨_, .null⟩
    | bool =>
      obtain ⟨p, rfl⟩ := kind?_eq_bool_iff.1 ha
      obtain ⟨q, rfl⟩ := kind?_eq_bool_iff.1 hb
      exact ⟨_, .bool p q⟩
    | string =>
      obtain ⟨s, rfl⟩ := kind?_eq_string_iff.1 ha
      obtain ⟨t, rfl⟩ := kind?_eq_string_iff.1 hb
      exact ⟨_, .string s t⟩
    | number =>
      obtain ⟨k, hk⟩ := kind?_eq_number_iff.1 ha
      obtain ⟨l, hl⟩ := kind?_eq_number_iff.1 hb
      exact of_key? hk hl

/-- A value is equal to itself, or has no order. -/
theorem self (h : Compared a a order) : order = .eq := by
  have hswap := h.unique h.swap
  cases order <;> first | rfl | cases hswap

/-- The order of two numbers: that of the integers if both are signed ones, and that of their
places among the doubles otherwise. -/
theorem lt_iff_of_key? (ha : a.key? = some k) (hb : b.key? = some l) :
    Compared a b .lt ↔ (∀ m n, a.signed? = some m → b.signed? = some n → m < n) ∧
      (a.signed? = none ∨ b.signed? = none → k < l) := by
  rw [← compare?_eq_some_iff, compare?_of_key? ha]
  rcases signed_or_rounded a b with ⟨m, n, hm, hn⟩ | hrounded
  · rw [compareNumbers?_signed hm hn, Option.some.injEq, Int.compare_eq_lt]
    simp [hm, hn]
  · rw [compareNumbers?_rounded hrounded, ha, hb, Option.bind_some, Option.map_some,
      Option.some.injEq, Int.compare_eq_lt]
    refine ⟨fun hlt => ⟨fun m n hm hn => ?_, fun _ => hlt⟩, fun h => h.2 hrounded⟩
    simp [hm, hn] at hrounded

/-- **A number is not after a greater one** among the doubles. -/
theorem key_le (h : Compared a b .lt) (ha : a.key? = some k) (hb : b.key? = some l) :
    k ≤ l := by
  rw [lt_iff_of_key? ha hb] at h
  rcases signed_or_rounded a b with ⟨m, n, hm, hn⟩ | hrounded
  · rw [key?_of_signed? hm, Option.some.injEq] at ha
    rw [key?_of_signed? hn, Option.some.injEq] at hb
    rw [← ha, ← hb]
    exact Binary64.keyOfInt_mono (h.1 m n hm hn).le
  · exact (h.2 hrounded).le

/-- The order of numbers is transitive, whichever of the two methods compares each pair. -/
theorem lt_trans_of_key? {p : Int} (ha : a.key? = some k) (hb : b.key? = some l)
    (hc : c.key? = some p) (hab : Compared a b .lt) (hbc : Compared b c .lt) :
    Compared a c .lt := by
  have hkl := hab.key_le ha hb
  have hlp := hbc.key_le hb hc
  rw [lt_iff_of_key? ha hb] at hab
  rw [lt_iff_of_key? hb hc] at hbc
  rw [lt_iff_of_key? ha hc]
  constructor
  · intro m n hm hn
    cases hmid : b.signed? with
    | some i => exact (hab.1 m i hm hmid).trans (hbc.1 i n hmid hn)
    | none =>
      -- both comparisons are made among the doubles, where `b` lies between the two integers
      have hlt : k < p := (hab.2 (.inr hmid)).trans (hbc.2 (.inl hmid))
      rw [key?_of_signed? hm, Option.some.injEq] at ha
      rw [key?_of_signed? hn, Option.some.injEq] at hc
      rw [← ha, ← hc] at hlt
      exact lt_of_not_ge fun hle => hlt.not_ge (Binary64.keyOfInt_mono hle)
  · rintro (hnone | hnone)
    · exact (hab.2 (.inl hnone)).trans_le hlp
    · exact hkl.trans_lt (hbc.2 (.inr hnone))

/-- **The order is transitive.** -/
theorem lt_trans (hab : Compared a b .lt) (hbc : Compared b c .lt) : Compared a c .lt := by
  obtain ⟨hsome, hsame⟩ := exists_iff_sameKind.1 ⟨_, hab⟩
  obtain ⟨-, hsame'⟩ := exists_iff_sameKind.1 ⟨_, hbc⟩
  obtain ⟨kind, ha⟩ := Option.isSome_iff_exists.1 hsome
  have hb := hsame.symm.trans ha
  have hc := hsame'.symm.trans hb
  cases kind with
  | null =>
    obtain rfl := kind?_eq_null_iff.1 ha
    obtain rfl := kind?_eq_null_iff.1 hb
    cases hab.self
  | bool =>
    obtain ⟨p, rfl⟩ := kind?_eq_bool_iff.1 ha
    obtain ⟨q, rfl⟩ := kind?_eq_bool_iff.1 hb
    obtain ⟨r, rfl⟩ := kind?_eq_bool_iff.1 hc
    have hpr := Std.TransCmp.lt_trans (hab.unique (.bool p q)).symm (hbc.unique (.bool q r)).symm
    exact hpr ▸ .bool p r
  | string =>
    obtain ⟨s, rfl⟩ := kind?_eq_string_iff.1 ha
    obtain ⟨t, rfl⟩ := kind?_eq_string_iff.1 hb
    obtain ⟨u, rfl⟩ := kind?_eq_string_iff.1 hc
    have hsu :=
      Std.TransCmp.lt_trans (hab.unique (.string s t)).symm (hbc.unique (.string t u)).symm
    exact hsu ▸ .string s u
  | number =>
    obtain ⟨k, hk⟩ := kind?_eq_number_iff.1 ha
    obtain ⟨l, hl⟩ := kind?_eq_number_iff.1 hb
    obtain ⟨p, hp⟩ := kind?_eq_number_iff.1 hc
    exact lt_trans_of_key? hk hl hp hab hbc

end Compared

end Json

namespace Operator

open Json

/-! ### The operators -/

section Laws

variable {a b c : Json}

/-- The operator that says that two values are in that order. -/
def ofOrdering : Ordering → Operator
  | .lt => lt
  | .eq => eq
  | .gt => gt

theorem ofOrdering_holds_iff (order : Ordering) :
    (ofOrdering order).holds a b = true ↔ Compared a b order := by
  rw [← compare?_eq_some_iff]
  cases order <;> exact beq_iff_eq

theorem mem_ofOrdering {operator : Operator} (h : operator ∈ [lt, eq, gt]) :
    ∃ order, operator = ofOrdering order := by
  simp only [List.mem_cons, List.not_mem_nil, or_false] at h
  rcases h with rfl | rfl | rfl
  · exact ⟨.lt, rfl⟩
  · exact ⟨.eq, rfl⟩
  · exact ⟨.gt, rfl⟩

/-- Reading from the other side is reading the opposite order. -/
theorem ofOrdering_holds_swap (order : Ordering) (a b : Json) :
    (ofOrdering order.swap).holds a b = (ofOrdering order).holds b a := by
  rw [Bool.eq_iff_iff, ofOrdering_holds_iff, ofOrdering_holds_iff]
  exact Compared.swap_iff order

theorem eq_holds_comm (a b : Json) : eq.holds a b = eq.holds b a := ofOrdering_holds_swap .eq a b

theorem gt_holds_eq (a b : Json) : gt.holds a b = lt.holds b a := ofOrdering_holds_swap .lt a b

theorem lt_holds_iff : lt.holds a b = true ↔ Compared a b .lt := ofOrdering_holds_iff .lt

theorem gte_holds_eq (a b : Json) : gte.holds a b = (gt.holds a b || eq.holds a b) := rfl

theorem lte_holds_eq (a b : Json) : lte.holds a b = (lt.holds a b || eq.holds a b) := rfl

/-- Of the three operators that say what an order is, one holds between two values of one
kind. -/
theorem existsUnique_holds (h : SameKind a b) :
    ∃! operator, operator ∈ [lt, eq, gt] ∧ operator.holds a b = true := by
  obtain ⟨order, hab⟩ := Compared.exists_iff_sameKind.2 h
  refine ⟨ofOrdering order, ⟨?_, (ofOrdering_holds_iff order).2 hab⟩, ?_⟩
  · cases order <;> decide
  · rintro operator ⟨hmem, hholds⟩
    obtain ⟨other, rfl⟩ := mem_ofOrdering hmem
    rw [((ofOrdering_holds_iff other).1 hholds).unique hab]

/-- None of them holds between other values. -/
theorem holds_eq_false (h : ¬SameKind a b) {operator : Operator}
    (hmem : operator ∈ [lt, eq, gt]) : operator.holds a b = false := by
  obtain ⟨order, rfl⟩ := mem_ofOrdering hmem
  rw [Bool.eq_false_iff, ne_eq, ofOrdering_holds_iff]
  exact fun hab => h (Compared.exists_iff_sameKind.1 ⟨order, hab⟩)

end Laws

/-- **The operators are those of one order.** Each is told by the others, those that say what
the order is exclude each other and exhaust the pairs of one kind, and what is less is so
irreflexively and transitively, over every mixture of integers and doubles. -/
theorem holds_order (a b c : Json) :
    gt.holds a b = lt.holds b a ∧ gte.holds a b = lte.holds b a ∧
    eq.holds a b = eq.holds b a ∧ neq.holds a b = !eq.holds a b ∧
    gte.holds a b = (gt.holds a b || eq.holds a b) ∧
    (SameKind a b → ∃! operator, operator ∈ [lt, eq, gt] ∧ operator.holds a b = true) ∧
    (¬SameKind a b → ∀ operator ∈ [lt, eq, gt], operator.holds a b = false) ∧
    lt.holds a a = false ∧
    (lt.holds a b = true → lt.holds b c = true → lt.holds a c = true) := by
  refine ⟨gt_holds_eq a b, ?_, eq_holds_comm a b, holds_neq a b, gte_holds_eq a b,
    existsUnique_holds, fun h _ hmem => holds_eq_false h hmem, ?_, fun hab hbc => ?_⟩
  · rw [gte_holds_eq, lte_holds_eq, gt_holds_eq, eq_holds_comm]
  · rw [Bool.eq_false_iff, ne_eq, lt_holds_iff]
    exact fun h => nomatch h.self
  · rw [lt_holds_iff] at hab hbc ⊢
    exact hab.lt_trans hbc

/-! ### Integers -/

/-- The relation between integers that an operator stands for. -/
def relation : Operator → Int → Int → Prop
  | eq, m, n => m = n
  | neq, m, n => m ≠ n
  | gt, m, n => m > n
  | gte, m, n => m ≥ n
  | lt, m, n => m < n
  | lte, m, n => m ≤ n

instance (operator : Operator) (m n : Int) : Decidable (operator.relation m n) :=
  match operator with
  | eq => inferInstanceAs (Decidable (m = n))
  | neq => inferInstanceAs (Decidable (m ≠ n))
  | gt => inferInstanceAs (Decidable (m > n))
  | gte => inferInstanceAs (Decidable (m ≥ n))
  | lt => inferInstanceAs (Decidable (m < n))
  | lte => inferInstanceAs (Decidable (m ≤ n))

section Integers

variable {m n : Int}

theorem holds_iff_relation {a b : Json} (h : Compared a b (compare m n)) (operator : Operator) :
    operator.holds a b = true ↔ operator.relation m n := by
  rw [← compare?_eq_some_iff] at h
  cases operator <;>
    simp only [holds, h, relation, beq_iff_eq, bne_iff_ne, Bool.or_eq_true, Option.some.injEq,
      ne_eq, Int.compare_eq_lt, Int.compare_eq_eq, Int.compare_eq_gt] <;>
    omega

/-- Signed integers are compared as integers. -/
theorem compared_signed (hm : isSigned m = true) (hn : isSigned n = true) :
    Compared (.int m) (.int n) (compare m n) :=
  .signed (signed?_eq_some_iff.2 ⟨rfl, hm⟩) (signed?_eq_some_iff.2 ⟨rfl, hn⟩)

/-- If one of two integers is not signed, their nearest doubles are compared. -/
theorem compared_rounded (h : isSigned m = false ∨ isSigned n = false) :
    Compared (.int m) (.int n) (compare (Binary64.keyOfInt m) (Binary64.keyOfInt n)) := by
  refine .rounded (h.imp (fun hm => ?_) fun hn => ?_) rfl rfl
  · simp [signed?, hm]
  · simp [signed?, hn]

/-- **Integers that the comparison takes for one**: different ones, at least one of them beyond
the signed integers, with the same double nearest to them. -/
def Indistinct (m n : Int) : Prop :=
  m ≠ n ∧ 0x8000000000000000 ≤ max m n ∧
    ((0x8000000000000000 ≤ min m n ∧
        Binary64.roundDiv (min m n).toNat 2048 = Binary64.roundDiv (max m n).toNat 2048) ∨
      (0x7FFFFFFFFFFFFE00 ≤ min m n ∧ max m n ≤ 0x8000000000000400))

instance (m n : Int) : Decidable (Indistinct m n) := by unfold Indistinct; infer_instance

theorem indistinct_comm : Indistinct m n ↔ Indistinct n m := by
  rw [Indistinct, Indistinct, ne_comm, max_comm, min_comm]

/-- Where the comparison rounds, the indistinct integers are those with one double. -/
theorem indistinct_iff (hm : integerRange m) (hn : integerRange n)
    (h : isSigned m = false ∨ isSigned n = false) :
    Indistinct m n ↔ m ≠ n ∧ Binary64.keyOfInt m = Binary64.keyOfInt n := by
  wlog hle : m ≤ n generalizing m n
  · rw [indistinct_comm, this hn hm h.symm (by omega), ne_comm, eq_comm (a := Binary64.keyOfInt m)]
  have hbig : 0x8000000000000000 ≤ n := by
    simp only [isSigned, integerRange, Bool.and_eq_false_iff, decide_eq_false_iff_not] at h hm hn
    omega
  rw [Binary64.keyOfInt_eq_iff hle hbig hn.2, Indistinct, max_eq_right hle, min_eq_left hle]
  exact and_congr_right fun _ => and_iff_right hbig

/-- Signed integers are told apart. -/
theorem not_indistinct (hm : isSigned m = true) (hn : isSigned n = true) : ¬Indistinct m n := by
  rintro ⟨-, hbig, -⟩
  simp only [isSigned, Bool.and_eq_true, decide_eq_true_eq] at hm hn
  exact absurd hbig (not_le.2 (max_lt hm.2 hn.2))

/-- Integers with different doubles are in the order of these. -/
theorem compare_keyOfInt (h : Binary64.keyOfInt m ≠ Binary64.keyOfInt n) :
    compare (Binary64.keyOfInt m) (Binary64.keyOfInt n) = compare m n := by
  rcases lt_trichotomy m n with hlt | rfl | hgt
  · have hkeys := (Binary64.keyOfInt_mono hlt.le).lt_of_ne h
    rw [Int.compare_eq_lt.2 hlt, Int.compare_eq_lt.2 hkeys]
  · exact absurd rfl h
  · have hkeys := (Binary64.keyOfInt_mono hgt.le).lt_of_ne h.symm
    rw [Int.compare_eq_gt.2 hgt, Int.compare_eq_gt.2 hkeys]

/-- The order of two integers is that of their values, unless they are indistinct. -/
theorem compared_int (hm : integerRange m) (hn : integerRange n) (h : ¬Indistinct m n) :
    Compared (.int m) (.int n) (compare m n) := by
  by_cases hsigned : isSigned m = true ∧ isSigned n = true
  · exact compared_signed hsigned.1 hsigned.2
  · rw [not_and_or, Bool.not_eq_true, Bool.not_eq_true] at hsigned
    have hrounded := compared_rounded hsigned
    rw [indistinct_iff hm hn hsigned, not_and] at h
    rcases eq_or_ne m n with rfl | hne
    · simpa only [Std.ReflCmp.compare_self] using hrounded
    · rwa [compare_keyOfInt (h hne)] at hrounded

/-- Indistinct integers are equal to the comparison. -/
theorem compared_of_indistinct (hm : integerRange m) (hn : integerRange n) (h : Indistinct m n) :
    Compared (.int m) (.int n) .eq := by
  have hrounds : isSigned m = false ∨ isSigned n = false := by
    rw [← Bool.not_eq_true, ← Bool.not_eq_true, ← not_and_or]
    exact fun hsigned => not_indistinct hsigned.1 hsigned.2 h
  have hrounded := compared_rounded hrounds
  rwa [((indistinct_iff hm hn hrounds).1 h).2, Int.compare_eq_eq.2 rfl] at hrounded

end Integers

/-- **Which integers the operators tell apart.** Between two integers of 64 bits, signed or not,
all six operators are the relations of the integers exactly if the two are not indistinct;
between indistinct ones each operator holds as between an integer and itself. -/
theorem holds_int_iff {m n : Int} (hm : integerRange m) (hn : integerRange n) :
    ((∀ operator : Operator, operator.holds (.int m) (.int n) = true ↔ operator.relation m n) ↔
        ¬Indistinct m n) ∧
      (Indistinct m n →
        ∀ operator : Operator, operator.holds (.int m) (.int n) = true ↔
          operator.relation n n) := by
  have hequal : Indistinct m n → ∀ operator : Operator,
      operator.holds (.int m) (.int n) = true ↔ operator.relation n n := by
    intro h operator
    refine holds_iff_relation ?_ operator
    have hself : compare n n = .eq := Std.ReflCmp.compare_self
    rw [hself]
    exact compared_of_indistinct hm hn h
  refine ⟨⟨fun hall h => ?_, fun h => holds_iff_relation (compared_int hm hn h)⟩, hequal⟩
  exact h.1 ((hall eq).1 ((hequal h eq).2 rfl))

/-- The greatest integer that is less than the first unsigned one to the operators, and the
first two that are equal. -/
theorem holds_int_aroundSigned :
    (∀ operator : Operator, operator.holds (.int 0x7FFFFFFFFFFFFDFF) (.int 0x8000000000000000) =
        true ↔ operator.relation 0x7FFFFFFFFFFFFDFF 0x8000000000000000) ∧
      ∀ operator : Operator, operator.holds (.int 0x8000000000000000) (.int 0x8000000000000001) =
        true ↔ operator.relation 0x8000000000000001 0x8000000000000001 :=
  ⟨(holds_int_iff (by decide) (by decide)).1.2 (by decide),
    (holds_int_iff (by decide) (by decide)).2 (by decide +kernel)⟩

/-- The first two unsigned integers are equal to the operators. -/
theorem firstUnsigned_equal : ¬∀ m n : Int, integerRange m → integerRange n →
    ∀ operator : Operator, operator.holds (.int m) (.int n) = true ↔ operator.relation m n := by
  intro h
  have heq := (h 0x8000000000000000 0x8000000000000001 (by decide) (by decide) eq).1
    (by decide +kernel)
  exact absurd heq (by decide)

end Operator

end QueryAccess
