import Mathlib.Order.Compare

/-! The 128-bit identifiers of the kernel: equal and ordered by their value. -/

namespace Cfmd
open Std

structure Id128 where
  value : BitVec 128
deriving DecidableEq, Repr

namespace Id128

instance (n : ℕ) : OfNat Id128 n := ⟨⟨BitVec.ofNat 128 n⟩⟩

instance : Ord Id128 := ⟨compareOn value⟩

instance : TransOrd Id128 := inferInstanceAs (TransCmp (compareOn value))

instance : LawfulEqOrd Id128 where
  eq_of_compare {a b} h := by
    have hvalue : a.value = b.value := LawfulEqOrd.eq_of_compare h
    cases a
    cases b
    simp_all

end Id128

abbrev SemanticId := Id128
abbrev RevisionObservableId := Id128
abbrev EqClassId := Id128

end Cfmd
