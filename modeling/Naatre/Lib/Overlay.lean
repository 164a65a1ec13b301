import Mathlib.Data.List.Basic
import Mathlib.Logic.Function.Basic

/-!
Writes laid over a function, one after the other.
-/

namespace Naatre.Lib

section

variable {ι κ β : Type*} [DecidableEq κ] {key : ι → κ} {val : ι → β}

/-- Each write gives its key its value. -/
def overlay (key : ι → κ) (val : ι → β) (f : κ → β) (writes : List ι) : κ → β :=
  writes.foldl (fun f w => Function.update f (key w) (val w)) f

theorem overlay_cons (f : κ → β) (w : ι) (writes : List ι) :
    overlay key val f (w :: writes) =
      overlay key val (Function.update f (key w) (val w)) writes := rfl

theorem overlay_append (f : κ → β) (writes more : List ι) :
    overlay key val f (writes ++ more) = overlay key val (overlay key val f writes) more :=
  List.foldl_append

/-- A key that nothing is written to keeps its value. -/
theorem overlay_of_not_written {f : κ → β} {writes : List ι} {k : κ}
    (h : ∀ w ∈ writes, key w ≠ k) : overlay key val f writes k = f k := by
  induction writes generalizing f with
  | nil => rfl
  | cons w writes ih =>
      obtain ⟨hw, hrest⟩ := List.forall_mem_cons.mp h
      rw [overlay_cons, ih hrest, Function.update_of_ne (Ne.symm hw)]

/-- A key that is written, and with one value only, has that value. -/
theorem overlay_of_written {f : κ → β} {writes : List ι} {k : κ} {b : β}
    (hwritten : ∃ w ∈ writes, key w = k) (h : ∀ w ∈ writes, key w = k → val w = b) :
    overlay key val f writes k = b := by
  induction writes generalizing f with
  | nil =>
      obtain ⟨w, hw, -⟩ := hwritten
      cases hw
  | cons w writes ih =>
      obtain ⟨hw, hrest⟩ := List.forall_mem_cons.mp h
      rw [overlay_cons]
      by_cases hlater : ∃ w ∈ writes, key w = k
      · exact ih hlater hrest
      · rw [overlay_of_not_written fun v hv heq => hlater ⟨v, hv, heq⟩]
        obtain ⟨v, hv, hkey⟩ := hwritten
        rcases List.mem_cons.mp hv with rfl | hv
        · rw [hkey, Function.update_self, hw hkey]
        · exact absurd ⟨v, hv, hkey⟩ hlater

end

end Naatre.Lib
