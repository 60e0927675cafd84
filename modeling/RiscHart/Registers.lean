import RiscHart.Isa.Register
import RiscHart.Numeral

/-!
# The register file

The 32 integer registers of a hart and the policy for register `x0`. Under the hardwired policy
`x0` reads as zero and drops what is written to it; under the writable policy it is a register like
the others. Access by number fails for a number that selects no register and then changes nothing.
`Registers.read` is the view of a register file, and `read_write` says what a write does to it.
-/

namespace RiscHart

/-- How register `x0` behaves. -/
inductive ZeroPolicy where
  | hardwired
  | writable
  deriving DecidableEq

def ZeroPolicy.name : ZeroPolicy → String
  | hardwired => "Hardwired"
  | writable => "Writable"

inductive RegisterError where
  /-- The number selects no register. -/
  | invalidIndex (n : Nat)
  deriving DecidableEq

def RegisterError.message : RegisterError → String
  | invalidIndex n => "invalid register index x" ++ Numeral.decimal n

structure Registers where
  zero : ZeroPolicy
  slots : Vector Word Reg.count
  deriving DecidableEq

namespace Registers

def clear (zero : ZeroPolicy) : Registers := ⟨zero, Vector.replicate Reg.count 0⟩

/-- Whether register `r` is held at zero. -/
def pinned (g : Registers) (r : Reg) : Bool := r = Reg.zero ∧ g.zero = .hardwired

def read (g : Registers) (r : Reg) : Word := if g.pinned r then 0 else g.slots[r.toFin]

def write (g : Registers) (r : Reg) (v : Word) : Registers :=
  if g.pinned r then g else { g with slots := g.slots.set r.toFin v }

def read? (g : Registers) (n : Nat) : Option Word := (Reg.ofNat? n).map g.read

def write? (g : Registers) (n : Nat) (v : Word) : Option Registers :=
  (Reg.ofNat? n).map (g.write · v)

def tryRead (g : Registers) (n : Nat) : Except RegisterError Word :=
  match g.read? n with
  | some v => .ok v
  | none => .error (.invalidIndex n)

def tryWrite (g : Registers) (n : Nat) (v : Word) : Except RegisterError Registers :=
  match g.write? n v with
  | some g' => .ok g'
  | none => .error (.invalidIndex n)

theorem write_of_pinned {g : Registers} {r : Reg} (h : g.pinned r) (v : Word) :
    g.write r v = g := by
  simp [write, h]

theorem write_of_not_pinned {g : Registers} {r : Reg} (h : g.pinned r = false) (v : Word) :
    g.write r v = { g with slots := g.slots.set r.toFin v } := by
  simp [write, h]

theorem zero_write (g : Registers) (r : Reg) (v : Word) : (g.write r v).zero = g.zero := by
  unfold write
  split <;> rfl

theorem pinned_write (g : Registers) (r s : Reg) (v : Word) :
    (g.write r v).pinned s = g.pinned s := by
  simp only [pinned, zero_write]

/-- A value is read back by the register it was written to alone, and not even there if that is
held at zero. -/
theorem read_write (g : Registers) (r s : Reg) (v : Word) :
    (g.write r v).read s = if s = r ∧ g.pinned r = false then v else g.read s := by
  cases hr : g.pinned r with
  | true => simp [write_of_pinned hr]
  | false =>
    simp only [read, pinned_write, and_true]
    by_cases hs : s = r
    · subst hs
      simp [hr, write]
    · have hne : r.toNat ≠ s.toNat := fun h => hs (BitVec.eq_of_toNat_eq h.symm)
      simp [hr, hs, write, hne]

theorem read_write_self {g : Registers} {r : Reg} (h : g.pinned r = false) (v : Word) :
    (g.write r v).read r = v :=
  (g.read_write r r v).trans (if_pos ⟨rfl, h⟩)

theorem read_write_of_ne (g : Registers) {r s : Reg} (h : s ≠ r) (v : Word) :
    (g.write r v).read s = g.read s :=
  (g.read_write r s v).trans (if_neg fun hn => h hn.1)

theorem slot_write (g : Registers) (r s : Reg) (v : Word) :
    (g.write r v).slots[s.toFin] =
      if s = r ∧ g.pinned r = false then v else g.slots[s.toFin] := by
  cases hr : g.pinned r with
  | true => simp [write_of_pinned hr]
  | false =>
    by_cases hs : s = r
    · subst hs
      simp [write_of_not_pinned hr]
    · have hne : r.toNat ≠ s.toNat := fun h => hs (BitVec.eq_of_toNat_eq h.symm)
      simp [write_of_not_pinned hr, hs, hne]

/-- Of two writes to a register the second one counts. -/
theorem write_write (g : Registers) (r : Reg) (v u : Word) :
    (g.write r v).write r u = g.write r u := by
  cases hr : g.pinned r with
  | true => rw [write_of_pinned hr]
  | false =>
    have hr' := (g.pinned_write r r v).trans hr
    rw [write_of_not_pinned hr', write_of_not_pinned hr, write_of_not_pinned hr, Vector.set_set]

/-- Writes to two registers can be made in either order, and also to one that is held at zero. -/
theorem write_comm (g : Registers) {r s : Reg} (h : r = s → g.pinned r = true) (v u : Word) :
    (g.write r v).write s u = (g.write s u).write r v := by
  have hr := g.pinned_write s r u
  have hs := g.pinned_write r s v
  cases hpr : g.pinned r with
  | true => rw [write_of_pinned hpr, write_of_pinned (hr.trans hpr)]
  | false =>
    cases hps : g.pinned s with
    | true => rw [write_of_pinned hps, write_of_pinned (hs.trans hps)]
    | false =>
      have hne : r.toNat ≠ s.toNat := by
        intro heq
        rw [h (BitVec.eq_of_toNat_eq heq)] at hpr
        cases hpr
      rw [write_of_not_pinned (hs.trans hps), write_of_not_pinned (hr.trans hpr),
        write_of_not_pinned hpr, write_of_not_pinned hps]
      exact congrArg (fun slots => (⟨g.zero, slots⟩ : Registers)) (Vector.set_comm v u hne)

end Registers

end RiscHart
