import Mathlib.Tactic.Common

/-!
# Patterns

Regular expressions without alternatives: a sequence of texts and of characters of a class, one or more
of them. A match is found by backtracking, with as many characters of a class as possible first.
The strings that were found for the captured classes are returned.
-/

namespace Pattern

variable {α : Type}

/-- A piece of a pattern: a text, or one or more characters of a class. -/
inductive Piece where
  | text (w : List Char)
  | many (captured : Bool) (cls : Char → Bool)

/-- One or more characters of a class, and then what `k` accepts, when `taken` has been taken already.
The longest choice that `k` accepts is taken. -/
def matchMany (cls : Char → Bool) (k : List Char → List Char → Option α) (taken : List Char) :
    List Char → Option α
  | [] => none
  | c :: s =>
      if cls c then (matchMany cls k (taken ++ [c]) s).or (k (taken ++ [c]) s) else none

/-- A string as one of the strings captured, if it is. -/
def capture (captured : Bool) (w : List Char) (ws : List (List Char)) : List (List Char) :=
  if captured then w :: ws else ws

/-- The match of a pattern at the beginning of a string: the captured strings and what is left. -/
def matchAt : List Piece → List Char → Option (List (List Char) × List Char)
  | [], s => some ([], s)
  | .text w :: ps, s => if w.isPrefixOf s then matchAt ps (s.drop w.length) else none
  | .many captured cls :: ps, s =>
      matchMany cls
        (fun taken rest => (matchAt ps rest).map fun m => (capture captured taken m.1, m.2)) [] s

/-- The first match of a pattern anywhere in a string. -/
def search (ps : List Piece) : List Char → Option (List (List Char) × List Char)
  | [] => matchAt ps []
  | c :: s => (matchAt ps (c :: s)).or (search ps s)

/-- A string does not begin with a character of the class. -/
def Stops (cls : Char → Bool) (s : List Char) : Prop := ∀ c ∈ s.head?, cls c = false

variable {cls : Char → Bool} {k : List Char → List Char → Option α} {taken w v s : List Char} {a : α}

theorem matchMany_stop (h : Stops cls s) :
  matchMany cls k taken s = none
  := by
  cases s with
  | nil => rfl
  | cons c s =>
      have hc : cls c = false := h c rfl
      simp [matchMany, hc]

/-- Where `k` accepts no choice there is no match. -/
theorem matchMany_none (h : Stops cls s) (hv : ∀ c ∈ v, cls c)
    (hk : ∀ v₁ v₂, v = v₁ ++ v₂ → v₁ ≠ [] → k (taken ++ v₁) (v₂ ++ s) = none) :
  matchMany cls k taken (v ++ s) = none
  := by
  induction v generalizing taken with
  | nil => exact matchMany_stop h
  | cons c v ih =>
      have hc : cls c = true := hv c List.mem_cons_self
      rw [List.cons_append, matchMany, if_pos hc, ih fun c hc => hv c (List.mem_cons_of_mem _ hc)]
      · exact hk [c] v rfl (by simp)
      · intro v₁ v₂ heq hne
        rw [List.append_assoc]
        exact hk (c :: v₁) v₂ (by rw [heq, List.cons_append]) (by simp)

/-- The choice of `w` is taken when `k` accepts it and no longer one. -/
theorem matchMany_some (hne : w ≠ []) (h : Stops cls s) (hw : ∀ c ∈ w, cls c) (hv : ∀ c ∈ v, cls c)
    (hlonger : ∀ v₁ v₂, v = v₁ ++ v₂ → v₁ ≠ [] → k (taken ++ w ++ v₁) (v₂ ++ s) = none)
    (hk : k (taken ++ w) (v ++ s) = some a) :
  matchMany cls k taken (w ++ (v ++ s)) = some a
  := by
  induction w generalizing taken with
  | nil => exact absurd rfl hne
  | cons c w ih =>
      have hc : cls c = true := hw c List.mem_cons_self
      rw [List.cons_append, matchMany, if_pos hc]
      cases w with
      | nil =>
          rw [List.nil_append, matchMany_none h hv hlonger]
          exact hk
      | cons c' w =>
          rw [ih (by simp) fun c hc => hw c (List.mem_cons_of_mem _ hc)]
          · rfl
          · rw [List.append_assoc taken [c]]
            exact hlonger
          · rw [List.append_assoc taken [c]]
            exact hk

variable {ps : List Piece} {m : List (List Char) × List Char}

/-- A text is matched by itself. -/
theorem matchAt_text :
  matchAt (.text w :: ps) (w ++ s) = matchAt ps s
  := by
  rw [matchAt, if_pos, List.drop_left]
  simp

theorem matchAt_text_none (h : ¬ w <+: s) :
  matchAt (.text w :: ps) s = none
  := by
  rw [matchAt, if_neg]
  simpa using h

/-- Where the rest of the pattern accepts what is behind all characters of the class, these are
matched. -/
theorem matchAt_many {captured : Bool} (hne : w ≠ []) (hw : ∀ c ∈ w, cls c) (hs : Stops cls s)
    (h : matchAt ps s = some m) :
  matchAt (.many captured cls :: ps) (w ++ s) = some (capture captured w m.1, m.2)
  := by
  rw [matchAt]
  apply matchMany_some (v := []) hne hs hw
  · exact fun c hc => by cases hc
  · intro v₁ v₂ heq hne
    exact absurd (List.append_eq_nil_iff.mp heq.symm).1 hne
  · rw [List.nil_append, List.nil_append, h]
    rfl

/-- Where a text of characters of the class comes behind the characters of a class, these are matched
without it, if its first character comes only once. -/
theorem matchAt_many_text {captured : Bool} {x : Char} (hne : w ≠ []) (hw : ∀ c ∈ w, cls c)
    (hx : cls x) (hv : ∀ c ∈ v, cls c) (hs : Stops cls s) (hfirst : x ∉ v)
    (h : matchAt ps s = some m) :
  matchAt (.many captured cls :: .text (x :: v) :: ps) (w ++ (x :: v ++ s)) =
    some (capture captured w m.1, m.2)
  := by
  rw [matchAt]
  apply matchMany_some hne hs hw
  · intro c hc
    rcases List.mem_cons.mp hc with rfl | hc
    · exact hx
    · exact hv c hc
  · -- a longer choice leaves a string that does not begin with `x`
    intro v₁ v₂ heq hv₁
    rw [matchAt_text_none, Option.map_none]
    rintro ⟨u, hu⟩
    cases v₁ with
    | nil => exact hv₁ rfl
    | cons c v₁ =>
        obtain ⟨rfl, rfl⟩ := List.cons.inj heq
        cases v₂ with
        | nil =>
            have hstop := hs x (by rw [← List.nil_append s, ← hu]; rfl)
            rw [hx] at hstop
            cases hstop
        | cons c' v₂ =>
            obtain ⟨rfl, -⟩ := List.cons.inj hu
            exact hfirst (by simp)
  · rw [matchAt_text, h]
    rfl

/-- A match at the beginning is the first match. -/
theorem search_of_matchAt (h : matchAt ps s = some m) :
  search ps s = some m
  := by
  cases s with
  | nil => exact h
  | cons c s =>
      rw [search, h]
      rfl

end Pattern
