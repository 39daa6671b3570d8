/-! Counts that stop at a limit. Every number of items in a report fits 32 bits; a sum that would
    pass the limit stays at it, and a difference that would be negative is zero. -/

namespace ProbeCoverage

/-- A number of items, at most `Count.limit`. -/
structure Count where
  toNat : Nat
  toNat_le : toNat ≤ 0xFFFFFFFF
deriving DecidableEq, Repr

namespace Count

def limit : Nat := 0xFFFFFFFF

/-- The count of `n` items, capped at the limit. -/
def ofNat (n : Nat) : Count := ⟨min n limit, Nat.min_le_right n limit⟩

instance : OfNat Count n := ⟨ofNat n⟩
instance : Inhabited Count := ⟨0⟩

def add (a b : Count) : Count := ofNat (a.toNat + b.toNat)

/-- The difference, zero if `b` is larger. -/
def sub (a b : Count) : Count := ⟨a.toNat - b.toNat, Nat.le_trans (Nat.sub_le ..) a.toNat_le⟩

instance : Add Count := ⟨add⟩
instance : Sub Count := ⟨sub⟩
instance : Min Count := ⟨fun a b => if a.toNat ≤ b.toNat then a else b⟩

/-- The count read from a field of 32 bits, if it fits. -/
def ofNat? (n : Nat) : Option Count := if h : n ≤ 0xFFFFFFFF then some ⟨n, h⟩ else none

@[ext] theorem ext {a b : Count} (h : a.toNat = b.toNat) : a = b := by
  cases a; cases b; cases h; rfl

theorem eq_zero_iff {a : Count} : a = 0 ↔ a.toNat = 0 := ⟨congrArg toNat, fun h => ext h⟩

theorem toNat_le_limit (a : Count) : a.toNat ≤ limit := a.toNat_le

@[simp] theorem toNat_ofNat (n : Nat) : (ofNat n).toNat = min n limit := rfl

@[simp] theorem toNat_zero : (0 : Count).toNat = 0 := rfl

@[simp] theorem toNat_one : (1 : Count).toNat = 1 := rfl

@[simp] theorem toNat_add (a b : Count) : (a + b).toNat = min (a.toNat + b.toNat) limit := rfl

@[simp] theorem toNat_sub (a b : Count) : (a - b).toNat = a.toNat - b.toNat := rfl

@[simp] theorem toNat_min (a b : Count) : (min a b).toNat = min a.toNat b.toNat := by
  show (if a.toNat ≤ b.toNat then a else b).toNat = min a.toNat b.toNat
  split <;> omega

theorem ofNat_add_one (n : Nat) : ofNat n + 1 = ofNat (n + 1) := by
  refine ext ?_
  rw [toNat_add, toNat_one, toNat_ofNat, toNat_ofNat, limit]
  omega

theorem ofNat?_toNat (a : Count) : ofNat? a.toNat = some a := dif_pos a.toNat_le

end Count

end ProbeCoverage
