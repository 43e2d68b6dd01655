import ConcurrentQueues.Library.Fifo
import Mathlib.Logic.Relation

/-!
# One thread alone

What a machine does when one thread makes its calls one after the other and no other thread moves.
An abstract object says what each call should return; a machine implements it when each
sequence of calls returns what the object says. It is enough that some relation between
the states of the two is kept by each call.
-/

variable {ι σ ℓ Op Res Tag Ch A : Type}

namespace Machine

variable (M : Machine ι σ ℓ Op Res Tag Ch) (i : ι)

/-- Thread `i` makes one access of a call that has no result yet. -/
def Moves (x y : σ × ℓ) : Prop :=
  M.result x.2 = none ∧ ∃ ch t, M.step i ch x.1 x.2 = some (y.1, y.2, t)

/-- Thread `i` alone comes from `x` to `y` in finitely many accesses of one call. -/
def Goes : σ × ℓ → σ × ℓ → Prop := Relation.ReflTransGen (M.Moves i)

/-- When thread `i` alone calls `o` in the state `s`, the call returns `v` in the state `s'`. -/
def Solo (s : σ) (o : Op) (v : Res) (s' : σ) : Prop :=
  ∃ l, M.Goes i (s, M.start o) (s', l) ∧ M.result l = some v

/-- Thread `i` alone makes the calls of a list one after the other, which return the values of
another list. -/
inductive Serves : σ → List Op → List Res → σ → Prop where
  | nil (s : σ) : Serves s [] [] s
  | cons {s s' s'' : σ} {o : Op} {v : Res} {os : List Op} {vs : List Res}
      (first : M.Solo i s o v s') (rest : Serves s' os vs s'') : Serves s (o :: os) (v :: vs) s''

/-- What an object in the state `a` returns for a list of calls, when `spec` says what it returns
for one call and what its state is then. -/
def replies (spec : A → Op → Res × A) (a : A) : List Op → List Res
  | [] => []
  | o :: os => (spec a o).1 :: replies spec (spec a o).2 os

/-- Fewer than `N` calls that thread `i` makes one after the other on a new object all return, and
return what `spec` says. -/
def Implements (N : ℕ) (spec : A → Op → Res × A) (a : A) : Prop :=
  ∀ os, (∀ o ∈ os, M.valid o) → os.length < N →
    ∃ s, ∀ vs s', M.Serves i M.init os vs s' ↔ vs = replies spec a os ∧ s' = s

variable {M i}

/-! ### A call has one outcome -/

section unique

variable [Subsingleton Ch]

theorem Moves.unique {x y y' : σ × ℓ} (h : M.Moves i x y) (h' : M.Moves i x y') :
  y = y'
  := by
  obtain ⟨-, ch, t, hs⟩ := h
  obtain ⟨-, ch', t', hs'⟩ := h'
  rw [Subsingleton.elim ch' ch, hs, Option.some.injEq, Prod.mk.injEq, Prod.mk.injEq] at hs'
  exact Prod.ext hs'.1 hs'.2.1

/-- The accesses of a call come to one end. -/
theorem Goes.unique {x y y' : σ × ℓ} {v v' : Res} (h : M.Goes i x y) (h' : M.Goes i x y')
    (hv : M.result y.2 = some v) (hv' : M.result y'.2 = some v') :
  y = y'
  := by
  induction h using Relation.ReflTransGen.head_induction_on with
  | refl =>
      rcases h'.cases_head with rfl | ⟨z, hz, -⟩
      · rfl
      · cases hz.1.symm.trans hv
  | @head x z hz _ ih =>
      rcases h'.cases_head with rfl | ⟨z', hz', hrest⟩
      · cases hz.1.symm.trans hv'
      · obtain rfl := hz.unique hz'
        exact ih hrest

theorem Solo.unique {s s' s'' : σ} {o : Op} {v v' : Res} (h : M.Solo i s o v s')
    (h' : M.Solo i s o v' s'') :
  v = v' ∧ s' = s''
  := by
  obtain ⟨l, hgoes, hv⟩ := h
  obtain ⟨l', hgoes', hv'⟩ := h'
  cases hgoes.unique hgoes' hv hv'
  exact ⟨Option.some.inj (hv.symm.trans hv'), rfl⟩

theorem Serves.unique {s s' s'' : σ} {os : List Op} {vs vs' : List Res}
    (h : M.Serves i s os vs s') (h' : M.Serves i s os vs' s'') :
  vs = vs' ∧ s' = s''
  := by
  induction h generalizing vs' s'' with
  | nil =>
      cases h'
      exact ⟨rfl, rfl⟩
  | cons first _ ih =>
      cases h' with
      | cons first' rest' =>
          obtain ⟨rfl, rfl⟩ := first.unique first'
          obtain ⟨rfl, rfl⟩ := ih rest'
          exact ⟨rfl, rfl⟩

end unique

/-! ### Calls from accesses -/

/-- An access of a call, and what follows it. -/
theorem Goes.step {s s' : σ} {l l' : ℓ} {ch : Ch} {t : Tag} {y : σ × ℓ}
    (h : M.Goes i (s', l') y) (hl : M.result l = none)
    (hs : M.step i ch s l = some (s', l', t)) :
  M.Goes i (s, l) y
  := .head ⟨hl, ch, t, hs⟩ h

/-- When the accesses of one machine are accesses of another, a call of the first is a part of a
call of the second. -/
theorem Solo.inner {σ' ℓ' Op' Res' Tag' Ch' : Type} {N : Machine ι σ' ℓ' Op' Res' Tag' Ch'}
    {f : σ × ℓ → σ' × ℓ'} (hf : ∀ x y, M.Moves i x y → N.Moves i (f x) (f y)) {s s' : σ} {o : Op}
    {v : Res} (h : M.Solo i s o v s') :
  ∃ l, M.result l = some v ∧ N.Goes i (f (s, M.start o)) (f (s', l))
  := by
  obtain ⟨l, hgoes, hv⟩ := h
  exact ⟨l, hv, hgoes.lift f hf⟩

/-! ### Implementing an object -/

/-- Calls that keep a relation to the states of an object return what the object says. The relation
may speak of the number of calls made so far. -/
theorem serves_of_rep {N : ℕ} {spec : A → Op → Res × A} {Rep : ℕ → σ → A → Prop}
    (hcall : ∀ n < N, ∀ s a o, M.valid o → Rep n s a →
      ∃ s', M.Solo i s o (spec a o).1 s' ∧ Rep (n + 1) s' (spec a o).2)
    {os : List Op} {n : ℕ} {s : σ} {a : A} (hvalid : ∀ o ∈ os, M.valid o)
    (hlength : n + os.length ≤ N) (h : Rep n s a) :
  ∃ s', M.Serves i s os (replies spec a os) s'
  := by
  induction os generalizing n s a with
  | nil => exact ⟨s, .nil s⟩
  | cons o os ih =>
      rw [List.length_cons] at hlength
      obtain ⟨s', hsolo, h'⟩ := hcall n (by omega) s a o (hvalid o List.mem_cons_self) h
      obtain ⟨s'', hrest⟩ := ih (fun p hp => hvalid p (List.mem_cons_of_mem o hp))
        (show n + 1 + os.length ≤ N by omega) h'
      exact ⟨s'', .cons hsolo hrest⟩

theorem implements_of_rep [Subsingleton Ch] {N : ℕ} {spec : A → Op → Res × A} {a : A}
    (Rep : ℕ → σ → A → Prop) (hinit : Rep 0 M.init a)
    (hcall : ∀ n < N, ∀ s a o, M.valid o → Rep n s a →
      ∃ s', M.Solo i s o (spec a o).1 s' ∧ Rep (n + 1) s' (spec a o).2) :
  M.Implements i N spec a
  := by
  intro os hvalid hlength
  obtain ⟨s, hs⟩ := serves_of_rep hcall hvalid (by omega) hinit
  use s
  intro vs s'
  constructor
  · intro h
    exact h.unique hs
  · rintro ⟨rfl, rfl⟩
    exact hs

end Machine

/-! ### A FIFO list -/

/-- A plain FIFO list: a dequeue returns false when the list is empty, and leaves the output
variable as it is, and otherwise it returns the oldest item. -/
def fifo {V : Type} : List V → QueueOp V → QueueRes V × List V
  | q, .enqueue x => (.enqueued, q ++ [x])
  | [], .dequeue out => (.dequeued false out, [])
  | x :: q, .dequeue _ => (.dequeued true x, q)

example :
  Machine.replies fifo [] [.dequeue 0, .enqueue 2, .enqueue 4, .dequeue 0, .dequeue 2, .dequeue 4] =
    [.dequeued false 0, .enqueued, .enqueued, .dequeued true 2, .dequeued true 4, .dequeued false 4]
  := by decide
