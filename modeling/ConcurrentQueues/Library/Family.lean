import ConcurrentQueues.Library.Machine

/-!
# Families of objects

Any number of objects side by side, all of them copies of one machine. A thread that is in no call
may call any of the objects, and until the call returns it accesses that object only.
-/

namespace Machine

variable {ι σ ℓ Op Res Tag Ch κ : Type} [DecidableEq κ]

/-- The objects named by `κ`, each of which is a copy of `M`. -/
def family (M : Machine ι σ ℓ Op Res Tag Ch) (κ : Type) [DecidableEq κ] :
    Machine ι (κ → σ) (κ × ℓ) (κ × Op) Res (κ × Tag) Ch where
  init _ := M.init
  legal s := ∀ p, M.legal (s p)
  valid o := M.valid o.2
  start o := (o.1, M.start o.2)
  result l := M.result l.2
  step i ch s l :=
    (M.step i ch (s l.1) l.2).map fun (x, l', t) => (Function.update s l.1 x, (l.1, l'), (l.1, t))

variable {M : Machine ι σ ℓ Op Res Tag Ch}

/-- A step of a family is a step of the object that has been called. -/
theorem family_step {i : ι} {ch : Ch} {s s' : κ → σ} {p : κ} {l : ℓ} {l' : κ × ℓ} {t : κ × Tag}
    (hs : (M.family κ).step i ch s (p, l) = some (s', l', t)) :
  l'.1 = p ∧ t.1 = p ∧ M.step i ch (s p) l = some (s' p, l'.2, t.2) ∧ ∀ q, q ≠ p → s' q = s q
  := by
  obtain ⟨⟨x, l₁, τ⟩, hstep, heq⟩ := Option.map_eq_some_iff.mp hs
  cases heq
  refine ⟨rfl, rfl, ?_, fun q hq => Function.update_of_ne hq ..⟩
  rw [Function.update_self]
  exact hstep

end Machine
