import ConcurrentQueues.Library.Machine
import Mathlib.Data.List.Induction
import Mathlib.Logic.Relation

/-!
# Histories and clients

What the threads of a run see of the object: who has called what, and what has been returned to
whom, in the order in which this happened. A client is a program whose threads call an object. It
depends on the object through the history only, so that what holds of a client with one object
holds with every object that has no other histories.
-/

/-- A call or a return, as the thread that makes it sees it. -/
inductive Report (Op Res : Type) where
  | call (o : Op)
  | ret (v : Res)
  deriving DecidableEq

variable {ι σ ℓ Op Res Tag Ch S : Type}

/-- What a thread sees of an event. -/
def Event.report : Event Op Res Tag → Option (Report Op Res)
  | .call o => some (.call o)
  | .ret v => some (.ret v)
  | .act _ => none

/-- The event of which a thread sees a report. -/
def Report.event : Report Op Res → Event Op Res Tag
  | .call o => .call o
  | .ret v => .ret v

variable [DecidableEq ι]

namespace Machine

variable {M : Machine ι σ ℓ Op Res Tag Ch} {n : ℕ}

/-- The calls and returns of a run before a step. -/
def Run.history (r : M.Run n) : ℕ → List (ι × Report Op Res)
  | 0 => []
  | k + 1 => r.history k ++ ((r.event k).report.map fun e => (r.who k, e)).toList

variable (M) in
/-- The history `h` may lead to the configuration `c`. -/
inductive Traces : List (ι × Report Op Res) → Config ι σ ℓ → Prop where
  | start : Traces [] ⟨M.init, fun _ => none⟩
  | call {h : List (ι × Report Op Res)} {c c' : Config ι σ ℓ} {i : ι} {o : Op} (past : Traces h c)
      (now : M.Step c i (.call o) c') : Traces (h ++ [(i, .call o)]) c'
  | ret {h : List (ι × Report Op Res)} {c c' : Config ι σ ℓ} {i : ι} {v : Res} (past : Traces h c)
      (now : M.Step c i (.ret v) c') : Traces (h ++ [(i, .ret v)]) c'
  | act {h : List (ι × Report Op Res)} {c c' : Config ι σ ℓ} {i : ι} {t : Tag} (past : Traces h c)
      (now : M.Step c i (.act t) c') : Traces h c'

variable (M) in
/-- The object may be called and may return as `h` says. -/
def Admits (h : List (ι × Report Op Res)) : Prop := ∃ c, M.Traces h c

/-- A run has a history of the object. -/
theorem Run.traces (r : M.Run n) {k : ℕ} (hk : k ≤ n) :
  M.Traces (r.history k) (r.conf k)
  := by
  induction k with
  | zero =>
      rw [r.start]
      exact .start
  | succ k ih =>
      have hpast := ih (Nat.le_of_succ_le hk)
      have hstep := r.step k hk
      rw [Run.history]
      cases he : r.event k with
      | call o =>
          rw [he] at hstep
          apply Traces.call hpast hstep
      | ret v =>
          rw [he] at hstep
          apply Traces.ret hpast hstep
      | act t =>
          rw [he] at hstep
          rw [Event.report, Option.map_none, Option.toList_none, List.append_nil]
          apply Traces.act hpast hstep

variable (M) in
/-- The accesses of the threads may lead from `c` to `c'`. -/
def Internal : Config ι σ ℓ → Config ι σ ℓ → Prop :=
  Relation.ReflTransGen fun c c' => ∃ i t, M.Step c i (.act t) c'

theorem Traces.nil_inv {c : Config ι σ ℓ} (h : M.Traces [] c) :
  M.Internal ⟨M.init, fun _ => none⟩ c
  := by
  generalize hnil : ([] : List (ι × Report Op Res)) = w at h
  induction h with
  | start => exact .refl
  | act _ now ih => exact (ih hnil).tail ⟨_, _, now⟩
  | call => cases List.append_ne_nil_of_right_ne_nil _ (List.cons_ne_nil _ _) hnil.symm
  | ret => cases List.append_ne_nil_of_right_ne_nil _ (List.cons_ne_nil _ _) hnil.symm

theorem Traces.concat_inv {w : List (ι × Report Op Res)} {i : ι} {d : Report Op Res}
    {c : Config ι σ ℓ} (h : M.Traces (w ++ [(i, d)]) c) :
  ∃ c₀ c₁, M.Traces w c₀ ∧ M.Step c₀ i d.event c₁ ∧ M.Internal c₁ c
  := by
  generalize hw : w ++ [(i, d)] = w' at h
  induction h with
  | start => cases List.append_ne_nil_of_right_ne_nil _ (List.cons_ne_nil _ _) hw
  | act _ now ih =>
      obtain ⟨c₀, c₁, hpast, hstep, hacts⟩ := ih hw
      exact ⟨c₀, c₁, hpast, hstep, hacts.tail ⟨_, _, now⟩⟩
  | call past now | ret past now =>
      obtain ⟨rfl, heq⟩ := List.append_inj' hw rfl
      cases heq
      exact ⟨_, _, past, now, .refl⟩

end Machine

/-- What a thread of a client does: it calls the object, the object returns to it, or it makes a step
of its own, in which `Ch` resolves what the environment decides. -/
inductive Deed (Op Res Ch : Type) where
  | call (o : Op)
  | ret (v : Res)
  | move (ch : Ch)
  deriving DecidableEq

variable {Cho : Type}

/-- What the object has to do with it. -/
def Deed.report : Deed Op Res Cho → Option (Report Op Res)
  | .call o => some (.call o)
  | .ret v => some (.ret v)
  | .move _ => none

/-- The calls and returns among what the threads of a client do. -/
def reports (w : List (ι × Deed Op Res Cho)) : List (ι × Report Op Res) :=
  w.filterMap fun e => e.2.report.map fun d => (e.1, d)

/-- A program whose threads call an object. In the state `s` thread `i` calls `o` when `call i o s`
is a state, which is the next one; the next state when `v` is returned to it is `ret i v s`; and
it may make the step `ch` of its own when `move i ch s` is a state. -/
structure Client (ι Op Res Cho S : Type) where
  init : S
  call : ι → Op → S → Option S
  ret : ι → Res → S → S
  move : ι → Cho → S → Option S

namespace Client

variable (C : Client ι Op Res Cho S)

/-- The state after a deed, if the client may do it. -/
def step (s : S) : ι × Deed Op Res Cho → Option S
  | (i, .call o) => C.call i o s
  | (i, .ret v) => some (C.ret i v s)
  | (i, .move ch) => C.move i ch s

/-- The state after some deeds, if the client may do them. -/
def after (w : List (ι × Deed Op Res Cho)) : Option S := w.foldlM C.step C.init

variable {C} {M : Machine ι σ ℓ Op Res Tag Ch} {w : List (ι × Deed Op Res Cho)} {s : S}

omit [DecidableEq ι] in
theorem after_append {e : ι × Deed Op Res Cho} :
  C.after (w ++ [e]) = some s ↔ ∃ s₀, C.after w = some s₀ ∧ C.step s₀ e = some s
  := by
  rw [after, List.foldlM_append]
  simp only [List.foldlM_cons, List.foldlM_nil, bind_pure]
  apply Option.bind_eq_some_iff

omit [DecidableEq ι] in
theorem reports_append {e : ι × Deed Op Res Cho} :
  reports (w ++ [e]) = reports w ++ (e.2.report.map fun d => (e.1, d)).toList
  := by
  rw [reports, List.filterMap_append]
  cases he : e.2.report with
  | none =>
      rw [List.filterMap_cons_none (by rw [he]; rfl), List.filterMap_nil]
      rfl
  | some d =>
      rw [List.filterMap_cons_some (by rw [he]; rfl), List.filterMap_nil]
      rfl

/-- What holds at the start and is kept by the calls, the returns, the steps of the client and the
accesses to the object holds of the deeds, the client and the object at all times. -/
theorem invariant {c : Config ι σ ℓ} (I : List (ι × Deed Op Res Cho) → S → Config ι σ ℓ → Prop)
    (start : I [] C.init ⟨M.init, fun _ => none⟩)
    (call : ∀ w s s' c c' i o, I w s c → M.Step c i (.call o) c' → C.call i o s = some s' →
      I (w ++ [(i, .call o)]) s' c')
    (ret : ∀ w s c c' i v, I w s c → M.Step c i (.ret v) c' →
      I (w ++ [(i, .ret v)]) (C.ret i v s) c')
    (move : ∀ w s s' c i ch, I w s c → C.move i ch s = some s' → I (w ++ [(i, .move ch)]) s' c)
    (act : ∀ w s c c' i t, I w s c → M.Step c i (.act t) c' → I w s c')
    (hafter : C.after w = some s) (htraces : M.Traces (reports w) c) :
  I w s c
  := by
  have hacts : ∀ {w s c c'}, I w s c → M.Internal c c' → I w s c' := by
    intro w s c c' hI hacts
    induction hacts with
    | refl => exact hI
    | tail _ hstep ih =>
        obtain ⟨i, t, hstep⟩ := hstep
        apply act _ _ _ _ _ _ ih hstep
  induction w using List.reverseRec generalizing s c with
  | nil =>
      cases hafter
      exact hacts start htraces.nil_inv
  | append_singleton w e ih =>
      obtain ⟨s₀, hs₀, hstep⟩ := after_append.mp hafter
      rw [reports_append] at htraces
      obtain ⟨i, d⟩ := e
      cases d with
      | move ch =>
          rw [show (i, (Deed.move ch : Deed Op Res Cho)).2.report = none from rfl, Option.map_none,
            Option.toList_none, List.append_nil] at htraces
          exact move _ _ _ _ _ _ (ih hs₀ htraces) hstep
      | call o =>
          obtain ⟨c₀, c₁, hpast, hnow, hinternal⟩ := htraces.concat_inv
          exact hacts (call _ _ _ _ _ _ _ (ih hs₀ hpast) hnow hstep) hinternal
      | ret v =>
          cases hstep
          obtain ⟨c₀, c₁, hpast, hnow, hinternal⟩ := htraces.concat_inv
          exact hacts (ret _ _ _ _ _ _ (ih hs₀ hpast) hnow) hinternal

end Client
