import Mathlib.Data.List.Basic
import Mathlib.Tactic

/-!
# Programs over a store that may fail

A program reads from a store and writes batches to it, and the environment may
fail any of its operations: a failed read returns nothing, and a failed write has
applied **any selection** of its batch before the program sees the error. After a
failure the program stops, so what the store holds then is what every later
program starts from.

The environment is a list of decisions (`MonadServices.Fault`), one per operation; a
program that has used up the list meets no more failures. Programs form a monad,
`MonadServices.Faulty`, and are reasoned about with **triples that have a third
condition**: `MonadServices.Faulty.Meets P m Q C` says that from a store satisfying
`P`, the program `m` either returns `a` in a store satisfying `Q a`, or fails in a
store satisfying `C` – whatever the environment decides. The rules below are the
usual ones, with one twist: the rule for a write
(`MonadServices.Faulty.write_meets`) asks `C` of every sublist of the batch.
-/

namespace MonadServices

/-- What the environment does to one operation: let it through, or fail it after
applying the entries of the batch whose positions are selected. -/
abbrev Fault := Option (ℕ → Bool)

/-- The entries of a batch whose positions are selected. -/
def chosen {ω : Type} (sel : ℕ → Bool) (ws : List ω) : List ω :=
  (ws.zipIdx.filter fun p => sel p.2).map Prod.fst

theorem chosen_sublist {ω : Type} (sel : ℕ → Bool) (ws : List ω) :
    List.Sublist (chosen sel ws) ws := by
  have h : List.Sublist (chosen sel ws) (ws.zipIdx.map Prod.fst) :=
    (List.filter_sublist (p := fun p : ω × ℕ => sel p.2) (l := ws.zipIdx)).map Prod.fst
  rwa [List.zipIdx_map_fst] at h

/-- **A program over a store of type `σ`**: it takes the decisions of the
environment and the store, and gives its result or its error, the store it leaves
and the decisions it has not used. -/
def Faulty (σ ε α : Type) := List Fault → σ → Except ε α × σ × List Fault

namespace Faulty

variable {σ ε α β ω : Type}

instance : Monad (Faulty σ ε) where
  pure a := fun fs s => (.ok a, s, fs)
  bind m f := fun fs s =>
    match m fs s with
    | (.ok a, s', fs') => f a fs' s'
    | (.error e, s', fs') => (.error e, s', fs')

/-- Stops with an error of the program's own. -/
def fail (e : ε) : Faulty σ ε α := fun fs s => (.error e, s, fs)

/-- Returns a result the program has computed without the store. -/
def lift (r : Except ε α) : Faulty σ ε α := fun fs s => (r, s, fs)

/-- Reads the store; `lost` is the error of a failed read. -/
def read (lost : ε) (f : σ → Except ε α) : Faulty σ ε α := fun fs s =>
  match fs with
  | [] => (f s, s, [])
  | none :: fs => (f s, s, fs)
  | some _ :: fs => (.error lost, s, fs)

/-- Writes a batch; `lost` is the error of a failed write. -/
def write (lost : ε) (apply : σ → ω → σ) (ws : List ω) : Faulty σ ε Unit := fun fs s =>
  match fs with
  | [] => (.ok (), ws.foldl apply s, [])
  | none :: fs => (.ok (), ws.foldl apply s, fs)
  | some sel :: fs => (.error lost, (chosen sel ws).foldl apply s, fs)

/-- Runs a program for each element of a list, in order. -/
def traverse (f : α → Faulty σ ε β) : List α → Faulty σ ε (List β)
  | [] => pure []
  | a :: as => do
    let b ← f a
    let bs ← traverse f as
    pure (b :: bs)

/-! ### Triples -/

/-- **The triple**: from a store satisfying `P`, the program returns in a store
satisfying `Q`, or fails in a store satisfying `C`. -/
def Meets (P : σ → Prop) (m : Faulty σ ε α) (Q : α → σ → Prop) (C : σ → Prop) : Prop :=
  ∀ fs s, P s → match m fs s with
    | (.ok a, s', _) => Q a s'
    | (.error _, s', _) => C s'

variable {P : σ → Prop} {Q : α → σ → Prop} {C : σ → Prop}

/-- Reading a triple off a run that returned. -/
theorem Meets.ok {m : Faulty σ ε α} (h : Meets P m Q C) {fs : List Fault} {s s' : σ} {a : α}
    {fs' : List Fault} (hs : P s) (hrun : m fs s = (.ok a, s', fs')) : Q a s' := by
  have := h fs s hs
  rwa [hrun] at this

/-- Reading a triple off a run that failed. -/
theorem Meets.error {m : Faulty σ ε α} (h : Meets P m Q C) {fs : List Fault} {s s' : σ} {e : ε}
    {fs' : List Fault} (hs : P s) (hrun : m fs s = (.error e, s', fs')) : C s' := by
  have := h fs s hs
  rwa [hrun] at this

theorem Meets.conseq {m : Faulty σ ε α} {P' : σ → Prop} {Q' : α → σ → Prop} {C' : σ → Prop}
    (h : Meets P m Q C) (hP : ∀ s, P' s → P s) (hQ : ∀ a s, Q a s → Q' a s)
    (hC : ∀ s, C s → C' s) : Meets P' m Q' C' := by
  intro fs s hs
  have hm := h fs s (hP s hs)
  rcases hrun : m fs s with ⟨r, s', fs'⟩
  rw [hrun] at hm
  cases r with
  | ok a => exact hQ a s' hm
  | error e => exact hC s' hm

theorem pure_meets {a : α} (h : ∀ s, P s → Q a s) :
    Meets P (pure a : Faulty σ ε α) Q C :=
  fun _ s hs => h s hs

/-- **The rule of sequence.** -/
theorem bind_meets {m : Faulty σ ε β} {f : β → Faulty σ ε α} {R : β → σ → Prop}
    (hm : Meets P m R C) (hf : ∀ b, Meets (R b) (f b) Q C) : Meets P (m >>= f) Q C := by
  intro fs s hs
  have h := hm fs s hs
  change match (match m fs s with
    | (.ok a, s', fs') => f a fs' s'
    | (.error e, s', fs') => (.error e, s', fs')) with
    | (.ok a, s', _) => Q a s'
    | (.error _, s', _) => C s'
  rcases hrun : m fs s with ⟨r, s', fs'⟩
  rw [hrun] at h
  cases r with
  | ok b => exact hf b fs' s' h
  | error e => exact h

/-- The rule of sequence after a program whose result has a property. -/
theorem bind_meets_of_fact {m : Faulty σ ε β} {f : β → Faulty σ ε α} {S : β → Prop}
    {R : σ → Prop} (hm : Meets P m (fun b s => S b ∧ R s) C)
    (hf : ∀ b, S b → Meets R (f b) Q C) : Meets P (m >>= f) Q C :=
  bind_meets hm fun b fs s hs => hf b hs.1 fs s hs.2

/-- The rule of sequence after a program whose result is known. -/
theorem bind_meets_of_eq {m : Faulty σ ε β} {f : β → Faulty σ ε α} {v : β} {S : Prop}
    {R : σ → Prop} (hm : Meets P m (fun b s => (b = v ∧ S) ∧ R s) C)
    (hf : S → Meets R (f v) Q C) : Meets P (m >>= f) Q C :=
  bind_meets_of_fact hm fun _ hb => hb.1 ▸ hf hb.2

theorem lift_meets {r : Except ε α} (hQ : ∀ a s, r = .ok a → P s → Q a s)
    (hC : ∀ s, P s → C s) : Meets P (lift r : Faulty σ ε α) Q C := by
  intro fs s hs
  cases r with
  | ok a => exact hQ a s rfl hs
  | error e => exact hC s hs

/-- **The rule of reading**: the store is left alone either way. -/
theorem read_meets {lost : ε} {f : σ → Except ε α} (hQ : ∀ a s, f s = .ok a → P s → Q a s)
    (hC : ∀ s, P s → C s) : Meets P (read lost f) Q C := by
  intro fs s hs
  have hval : ∀ fs', match ((f s, s, fs') : Except ε α × σ × List Fault) with
      | (.ok a, s', _) => Q a s'
      | (.error _, s', _) => C s' := by
    intro fs'
    rcases hf : f s with e | a
    · exact hC s hs
    · exact hQ a s hf hs
  rcases fs with _ | ⟨_ | sel, fs⟩
  · exact hval []
  · exact hval fs
  · exact hC s hs

/-- **The rule of writing**: a failure may have applied any sublist of the batch. -/
theorem write_meets {lost : ε} {apply : σ → ω → σ} {ws : List ω} {Q : Unit → σ → Prop}
    (hQ : ∀ s, P s → Q () (ws.foldl apply s))
    (hC : ∀ s ws', P s → List.Sublist ws' ws → C (ws'.foldl apply s)) :
    Meets P (write lost apply ws) Q C := by
  intro fs s hs
  rcases fs with _ | ⟨_ | sel, fs⟩
  · exact hQ s hs
  · exact hQ s hs
  · exact hC s _ hs (chosen_sublist sel ws)

/-- **The rule of traversal**: `I` says what holds after the elements done so far,
and each result is related to its element. -/
theorem traverse_meets (done : List α) {f : α → Faulty σ ε β} {R : α → β → Prop}
    {I : List α → σ → Prop} {l : List α}
    (hf : ∀ pre a, a ∈ l → Meets (I pre) (f a) (fun b s => R a b ∧ I (pre ++ [a]) s) C) :
    Meets (I done) (traverse f l)
      (fun bs s => ((∀ a ∈ l, ∃ b ∈ bs, R a b) ∧ ∀ b ∈ bs, ∃ a ∈ l, R a b) ∧ I (done ++ l) s)
      C := by
  induction l generalizing done with
  | nil => exact pure_meets fun s hs => ⟨by simp, by simpa using hs⟩
  | cons a as ih =>
    refine bind_meets (hf done a (by simp)) fun b => ?_
    intro fs s hs
    obtain ⟨hab, hI⟩ := hs
    have hrest := ih (done ++ [a]) fun pre x hx => hf pre x (List.mem_cons_of_mem a hx)
    refine (bind_meets hrest fun bs => pure_meets fun s' hs' => ?_) fs s hI
    obtain ⟨⟨hl, hr⟩, hs'⟩ := hs'
    refine ⟨⟨fun x hx => ?_, fun y hy => ?_⟩, by simpa using hs'⟩
    · rcases List.mem_cons.mp hx with rfl | hx
      · exact ⟨b, by simp, hab⟩
      · obtain ⟨y, hy, hxy⟩ := hl x hx
        exact ⟨y, List.mem_cons_of_mem b hy, hxy⟩
    · rcases List.mem_cons.mp hy with rfl | hy
      · exact ⟨a, by simp, hab⟩
      · obtain ⟨x, hx, hxy⟩ := hr y hy
        exact ⟨x, List.mem_cons_of_mem a hx, hxy⟩

/-- The rule of traversal by programs whose results are known: the result for `G c` is
`F c`, and it comes only when `S c`. -/
theorem traverse_meets_map {γ : Type} {f : α → Faulty σ ε β} {G : γ → α} {F : γ → β}
    {S : γ → Prop} {l : List γ}
    (hf : ∀ c ∈ l, Meets P (f (G c)) (fun b s => (b = F c ∧ S c) ∧ P s) C) :
    Meets P (traverse f (l.map G)) (fun bs s => (bs = l.map F ∧ ∀ c ∈ l, S c) ∧ P s) C := by
  induction l with
  | nil => exact pure_meets fun s hs => ⟨⟨rfl, by simp⟩, hs⟩
  | cons c l ih =>
    refine bind_meets_of_eq (hf c (by simp)) fun hc => ?_
    refine bind_meets_of_eq (ih fun c' hc' => hf c' (List.mem_cons_of_mem c hc')) fun hl => ?_
    exact pure_meets fun s hs => ⟨⟨rfl, by simpa using ⟨hc, hl⟩⟩, hs⟩

end Faulty

end MonadServices
