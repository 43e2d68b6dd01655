import Mathlib.Data.List.Nodup
import Mathlib.Data.List.Infix
import Mathlib.Logic.Relation
import Mathlib.Tactic.Common

/-!
# Chains of pointers

The nodes through which one comes by following a field from a pointer until it is null. A
chain that ends is determined by its first pointer, so it cannot come back to a node.
-/

variable {α : Type}

/-- Following `next` from the pointer `p` leads through the nodes of `l` and ends in null. -/
def Links (next : α → Option α) : Option α → List α → Prop
  | p, [] => p = none
  | p, x :: l => p = some x ∧ Links next (next x) l

/-- The node `x` is reached from the pointer `p` by following `next`. -/
def Reached (next : α → Option α) (p : Option α) (x : α) : Prop :=
  ∃ y, p = some y ∧ Relation.ReflTransGen (fun u v => next u = some v) y x

namespace Links

variable {next next' : α → Option α} {p : Option α} {l l' : List α} {x : α}

/-- The chain from a pointer is unique. -/
theorem unique (h : Links next p l) (h' : Links next p l') :
  l = l'
  := by
  induction l generalizing p l' with
  | nil =>
      obtain rfl : p = none := h
      cases l' with
      | nil => rfl
      | cons x l' => cases h'.1
  | cons x l ih =>
      obtain ⟨rfl, hl⟩ := h
      cases l' with
      | nil => cases h'
      | cons y l' =>
          obtain ⟨hxy, hl'⟩ := h'
          obtain rfl := Option.some.inj hxy
          rw [ih hl hl']

/-- The part of a chain from one of its nodes on is a chain. -/
theorem suffix {l₁ l₂ : List α} (h : Links next p (l₁ ++ x :: l₂)) :
  Links next (some x) (x :: l₂)
  := by
  induction l₁ generalizing p with
  | nil => exact ⟨rfl, h.2⟩
  | cons y l₁ ih => exact ih h.2

/-- A chain that ends has no cycle. -/
theorem nodup (h : Links next p l) :
  l.Nodup
  := by
  induction l generalizing p with
  | nil => exact List.nodup_nil
  | cons x l ih =>
      apply List.nodup_cons.mpr
      use fun hmem => ?_, ih h.2
      -- the chain from the second occurrence would be as long as that from the first
      obtain ⟨l₁, l₂, rfl⟩ := List.append_of_mem hmem
      have hlong : Links next (some x) (x :: (l₁ ++ x :: l₂)) := ⟨rfl, h.2⟩
      have heq := congrArg List.length (hlong.unique (suffix h.2))
      simp only [List.length_cons, List.length_append] at heq
      omega

/-- A chain depends on the fields of its nodes only. -/
theorem congr (h : Links next p l) (hnext : ∀ x ∈ l, next' x = next x) :
  Links next' p l
  := by
  induction l generalizing p with
  | nil => exact h
  | cons x l ih =>
      use h.1
      rw [hnext x List.mem_cons_self]
      exact ih h.2 fun y hy => hnext y (List.mem_cons_of_mem x hy)

/-- The last node of a chain has no successor. -/
theorem last (h : Links next p (l ++ [x])) :
  next x = none
  := h.suffix.2

/-- A node is linked behind the last node of a chain. -/
theorem concat {y : α} (h : Links next p (l ++ [x])) (hnext : ∀ z ∈ l, next' z = next z)
    (hx : next' x = some y) (hy : next' y = none) :
  Links next' p (l ++ [x] ++ [y])
  := by
  induction l generalizing p with
  | nil => exact ⟨h.1, hx, hy⟩
  | cons z l ih =>
      use h.1
      rw [hnext z List.mem_cons_self]
      exact ih h.2 fun w hw => hnext w (List.mem_cons_of_mem z hw)

/-- A list in which each node is followed by its successor is a chain. -/
theorem of_getElem? (h : ∀ k x, l[k]? = some x → next x = l[k + 1]?) :
  Links next l.head? l
  := by
  induction l with
  | nil => rfl
  | cons x l ih =>
      use rfl
      have htail := ih fun k y hy => h (k + 1) y hy
      rwa [h 0 x rfl, List.getElem?_cons_succ, ← List.head?_eq_getElem?]

/-- What is reached is on the chain. -/
theorem mem_of_reached (h : Links next p l) (hx : Reached next p x) :
  x ∈ l
  := by
  obtain ⟨y, rfl, hreach⟩ := hx
  induction hreach using Relation.ReflTransGen.head_induction_on generalizing l with
  | refl =>
      cases l with
      | nil => cases h
      | cons z l =>
          obtain rfl := Option.some.inj h.1
          exact List.mem_cons_self
  | @head u v huv _ ih =>
      cases l with
      | nil => cases h
      | cons z l =>
          obtain rfl := Option.some.inj h.1
          apply List.mem_cons_of_mem
          apply ih
          rw [← huv]
          exact h.2

end Links
