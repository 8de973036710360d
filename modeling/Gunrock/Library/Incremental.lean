import Mathlib.Tactic.Common

/-!
# Machines that are fed a stream

A machine reads the elements of a stream one by one, until it is done or it dies (`Fate`).  The
stream may come in chunks of any size.  A reader of chunks that does with each chunk what the
machine does with its elements ends up the same, however the stream is cut (`ReadsAs.readAll_eq`).

What is behind the end of a finished run is not the machine's business, and a reader of chunks may do
with it what it likes; so the result is about streams with nothing behind the end.
-/

universe u v

variable {σ : Type u} {α : Type v}

namespace Incremental

/-- What becomes of a machine. -/
inductive Fate (σ : Type u) (α : Type v)
  | dead
  | waiting (s : σ)
  | finished (s : σ) (rest : List α)

section Fate

variable (step : σ → α → Option σ) (done : σ → Bool)

/-- What one step keeps, a run keeps. -/
theorem foldlM_keeps {step : σ → α → Option σ} {I : σ → Prop}
    (hkeeps : ∀ {s s' a}, I s → step s a = some s' → I s') {s s' : σ} {as : List α} (h : I s)
    (hs : as.foldlM step s = some s') : I s' := by
  induction as generalizing s with
  | nil =>
      cases hs
      exact h
  | cons a as ih =>
      rw [List.foldlM_cons] at hs
      obtain ⟨s₁, hstep, hs⟩ := Option.bind_eq_some_iff.mp hs
      exact ih (hkeeps h hstep) hs

/-- If no step gets stuck, a run gets through. -/
theorem exists_foldlM {step : σ → α → Option σ} {I : σ → Prop} {s : σ} {as : List α}
    (hkeeps : ∀ {s s' a}, I s → step s a = some s' → I s')
    (hstep : ∀ a ∈ as, ∀ s, I s → ∃ s', step s a = some s') (h : I s) :
    ∃ s', as.foldlM step s = some s' := by
  induction as generalizing s with
  | nil => exact ⟨s, rfl⟩
  | cons a as ih =>
      obtain ⟨hfirst, hrest⟩ := List.forall_mem_cons.mp hstep
      obtain ⟨s₁, hs₁⟩ := hfirst s h
      rw [List.foldlM_cons, hs₁]
      exact ih hrest (hkeeps h hs₁)

/-- The fate of a machine that is fed a stream. -/
def fate (s : σ) : List α → Fate σ α
  | [] => if done s then .finished s [] else .waiting s
  | a :: as =>
    if done s then .finished s (a :: as)
    else match step s a with
      | none => .dead
      | some s => fate s as

/-- The fate of a machine whose stream goes on with `rest`. -/
def Fate.continue (rest : List α) : Fate σ α → Fate σ α
  | .dead => .dead
  | .waiting s => fate step done s rest
  | .finished s left => .finished s (left ++ rest)

variable {step done} {s s' : σ} {as bs left : List α}

theorem fate_of_done (h : done s = true) : fate step done s as = .finished s as := by
  cases as <;> exact if_pos h

theorem fate_append : fate step done s (as ++ bs) = (fate step done s as).continue step done bs := by
  induction as generalizing s with
  | nil =>
      rw [List.nil_append, fate]
      split
      · rename_i h
        rw [fate_of_done h]
        rfl
      · rfl
  | cons a as ih =>
      rw [List.cons_append, fate, fate]
      split
      · rfl
      · cases step s a with
        | none => rfl
        | some s => exact ih

/-- A machine that waits is not done, and has read all of its stream. -/
theorem foldlM_of_waiting (h : fate step done s as = .waiting s') :
    as.foldlM step s = some s' ∧ done s' = false := by
  induction as generalizing s with
  | nil =>
      rw [fate] at h
      split at h
      · cases h
      · rename_i hdone
        cases h
        exact ⟨rfl, by simpa using hdone⟩
  | cons a as ih =>
      rw [fate] at h
      split at h
      · cases h
      · rw [List.foldlM_cons]
        cases hs : step s a with
        | none =>
            rw [hs] at h
            cases h
        | some s₁ =>
            rw [hs] at h
            exact ih h

/-- A machine that has finished has read what was in front of the rest. -/
theorem foldlM_of_finished (h : fate step done s as = .finished s' left) :
    ∃ bs, as = bs ++ left ∧ bs.foldlM step s = some s' ∧ done s' = true := by
  induction as generalizing s with
  | nil =>
      rw [fate] at h
      split at h <;> cases h
      exact ⟨[], rfl, rfl, by assumption⟩
  | cons a as ih =>
      rw [fate] at h
      split at h
      · cases h
        exact ⟨[], rfl, rfl, by assumption⟩
      · cases hs : step s a with
        | none =>
            rw [hs] at h
            cases h
        | some s₁ =>
            rw [hs] at h
            obtain ⟨bs, rfl, hbs, hdone⟩ := ih h
            refine ⟨a :: bs, rfl, ?_, hdone⟩
            rw [List.foldlM_cons, hs]
            exact hbs

/-- What is left is not needed. -/
theorem fate_of_finished (h : fate step done s as = .finished s' left) :
    ∃ bs, as = bs ++ left ∧ fate step done s bs = .finished s' [] := by
  induction as generalizing s with
  | nil =>
      rw [fate] at h
      split at h <;> cases h
      rename_i hdone
      exact ⟨[], rfl, fate_of_done hdone⟩
  | cons a as ih =>
      rw [fate] at h
      split at h
      · rename_i hdone
        cases h
        exact ⟨[], rfl, fate_of_done hdone⟩
      · rename_i hdone
        cases hs : step s a with
        | none =>
            rw [hs] at h
            cases h
        | some s₁ =>
            rw [hs] at h
            obtain ⟨bs, rfl, hbs⟩ := ih h
            refine ⟨a :: bs, rfl, ?_⟩
            rw [fate, if_neg hdone, hs]
            exact hbs

/-- A machine that dies has not read its whole stream. -/
theorem foldlM_of_dead (h : fate step done s as = .dead) : as.foldlM step s = none := by
  induction as generalizing s with
  | nil =>
      rw [fate] at h
      split at h <;> cases h
  | cons a as ih =>
      rw [fate] at h
      split at h
      · cases h
      · rw [List.foldlM_cons]
        cases hs : step s a with
        | none => rfl
        | some s₁ =>
            rw [hs] at h
            exact ih h

end Fate

/-! ## Chunks -/

/-- How a reader may end up on a stream.  It may be `Saved` where the machine dies, and with something
behind the end it may do more, but does not wait. -/
def Fate.Allows (Saved : σ → Prop) (out : Option (Option σ)) : Fate σ α → Prop
  | .dead => out = none ∨ ∃ s, Saved s ∧ out = some (some s)
  | .waiting _ => out = some none
  | .finished s rest => (rest = [] → out = some (some s)) ∧ out ≠ some none

section Chunks

variable (read : List α → σ → Option σ) (done : σ → Bool)

/-- A reader that is given chunks until it is done.  It may die, and there may be no more chunks. -/
def readAll : List (List α) → σ → Option (Option σ)
  | [], s => some (if done s then some s else none)
  | as :: chunks, s => if done s then some (some s) else (read as s).bind (readAll chunks)

/-- A reader that does with a chunk what a machine does with its elements, as long as `Inv` holds.
Where the machine dies it may be done, and `Saved`. -/
structure ReadsAs (step : σ → α → Option σ) (Inv Saved : σ → Prop) : Prop where
  keeps {s s' : σ} {a : α} (h : Inv s) (hs : step s a = some s') : Inv s'
  stays {s s' : σ} {a : α} (h : Inv s) (hdone : done s = true) (hs : step s a = some s') :
    done s' = true
  reads {s s' : σ} {as : List α} (h : Inv s) (hne : as ≠ []) (hdone : done s = false)
    (hs : as.foldlM step s = some s') : read as s = some s'
  saved {s s' : σ} {as : List α} (h : Inv s) (hne : as ≠ []) (hread : read as s = some s') :
    as.foldlM step s = some s' ∨ done s' = true ∧ Saved s'

variable {read done} {step : σ → α → Option σ} {Inv Saved : σ → Prop} {s s' : σ}
  {as : List α} {chunks : List (List α)}

theorem readAll_of_done (h : done s = true) : readAll read done chunks s = some (some s) := by
  cases chunks with
  | nil => exact congrArg some (if_pos h)
  | cons as chunks => exact if_pos h

namespace ReadsAs

theorem stays_foldlM (hr : ReadsAs read done step Inv Saved) (h : Inv s) (hdone : done s = true)
    (hs : as.foldlM step s = some s') : done s' = true :=
  (foldlM_keeps (I := fun s => Inv s ∧ done s = true)
    (fun h hs => ⟨hr.keeps h.1 hs, hr.stays h.1 h.2 hs⟩) ⟨h, hdone⟩ hs).2

/-- However a stream is cut, a reader of its chunks ends up as the machine does. -/
theorem readAll_eq (hr : ReadsAs read done step Inv Saved) (h : Inv s) (hne : [] ∉ chunks) :
    (fate step done s chunks.flatten).Allows Saved (readAll read done chunks s) := by
  induction chunks generalizing s with
  | nil =>
      rw [List.flatten_nil, fate, readAll]
      split
      · exact ⟨fun _ => rfl, by simp⟩
      · rfl
  | cons as chunks ih =>
      rw [List.mem_cons, not_or] at hne
      have has : as ≠ [] := Ne.symm hne.1
      cases hdone : done s with
      | true =>
          rw [fate_of_done hdone, readAll_of_done hdone]
          exact ⟨fun _ => rfl, by simp⟩
      | false =>
          rw [List.flatten_cons, fate_append, readAll, hdone]
          cases hf : fate step done s as with
          | dead =>
              cases hread : read as s with
              | none => exact .inl rfl
              | some s' =>
                  rcases hr.saved h has hread with hs | ⟨hdone', hsaved⟩
                  · rw [foldlM_of_dead hf] at hs
                    cases hs
                  · exact .inr ⟨s', hsaved, readAll_of_done hdone'⟩
          | waiting s' =>
              obtain ⟨hs, -⟩ := foldlM_of_waiting hf
              rw [if_neg Bool.false_ne_true, hr.reads h has hdone hs]
              exact ih (foldlM_keeps hr.keeps h hs) hne.2
          | finished s' left =>
              obtain ⟨bs, hbs, hs, hdone'⟩ := foldlM_of_finished hf
              refine ⟨fun hrest => ?_, ?_⟩
              · obtain ⟨rfl, -⟩ := List.append_eq_nil_iff.mp hrest
                rw [List.append_nil] at hbs
                rw [if_neg Bool.false_ne_true, hr.reads h has hdone (hbs ▸ hs)]
                exact readAll_of_done hdone'
              · cases hread : read as s with
                | none => simp
                | some s'' =>
                    have hdone'' : done s'' = true := by
                      rcases hr.saved h has hread with hs' | ⟨hdone'', -⟩
                      · rw [hbs, List.foldlM_append, hs] at hs'
                        exact hr.stays_foldlM (foldlM_keeps hr.keeps h hs) hdone' hs'
                      · exact hdone''
                    simp [readAll_of_done hdone'']

/-- A stream whose last element is the one that finishes the machine. -/
theorem readAll_of_last {a : α} (hr : ReadsAs read done step Inv Saved) (h : Inv s)
    (hne : [] ∉ chunks) (hflat : chunks.flatten = as ++ [a]) {s₁ : σ}
    (hs₁ : as.foldlM step s = some s₁) (hdone₁ : done s₁ = false) (hs : step s₁ a = some s')
    (hdone : done s' = true) : readAll read done chunks s = some (some s') := by
  have hwait : fate step done s as = .waiting s₁ := by
    cases hf : fate step done s as with
    | dead => exact absurd ((foldlM_of_dead hf).symm.trans hs₁) (Option.some_ne_none _).symm
    | waiting s₂ => rw [Option.some.inj ((foldlM_of_waiting hf).1.symm.trans hs₁)]
    | finished s₂ left =>
        obtain ⟨bs, rfl, hbs, hdone₂⟩ := foldlM_of_finished hf
        rw [List.foldlM_append, hbs] at hs₁
        have hdone' := hr.stays_foldlM (foldlM_keeps hr.keeps h hbs) hdone₂ hs₁
        exact absurd (hdone₁.symm.trans hdone') Bool.false_ne_true
  have hout := hr.readAll_eq h hne
  rw [hflat, fate_append, hwait, Fate.continue, fate, if_neg (by simp [hdone₁]), hs] at hout
  dsimp only at hout
  rw [fate_of_done hdone] at hout
  exact hout.1 rfl

/-- A reader that waits is where the machine is. -/
theorem exists_of_readAll (hr : ReadsAs read done step Inv Saved) (h : Inv s) (hne : [] ∉ chunks)
    (hread : readAll read done chunks s = some none) : ∃ s', done s' = false ∧
      chunks.flatten.foldlM step s = some s' ∧
        ∀ more, readAll read done (chunks ++ more) s = readAll read done more s' := by
  induction chunks generalizing s with
  | nil =>
      rw [readAll] at hread
      split at hread
      · cases hread
      · exact ⟨s, by simpa using ‹¬ done s = true›, rfl, fun _ => rfl⟩
  | cons as chunks ih =>
      rw [List.mem_cons, not_or] at hne
      rw [readAll] at hread
      split at hread
      · cases hread
      · rename_i hdone
        obtain ⟨s₁, hread₁, hread⟩ := Option.bind_eq_some_iff.mp hread
        rcases hr.saved h (Ne.symm hne.1) hread₁ with hs | ⟨hdone₁, -⟩
        · obtain ⟨s', hdone', hs', happend⟩ := ih (foldlM_keeps hr.keeps h hs) hne.2 hread
          refine ⟨s', hdone', ?_, fun more => ?_⟩
          · rw [List.flatten_cons, List.foldlM_append, hs]
            exact hs'
          · rw [List.cons_append, readAll, if_neg hdone, hread₁]
            exact happend more
        · rw [readAll_of_done hdone₁] at hread
          cases hread

/-- What a reader ends up with the machine has come to, unless it is `Saved`. -/
theorem foldlM_of_readAll (hr : ReadsAs read done step Inv Saved) (h : Inv s) (hne : [] ∉ chunks)
    (hread : readAll read done chunks s = some (some s')) :
    done s' = true ∧ ((∃ taken left, chunks = taken ++ left ∧
      taken.flatten.foldlM step s = some s') ∨ Saved s') := by
  induction chunks generalizing s with
  | nil =>
      rw [readAll] at hread
      split at hread <;> cases hread
      exact ⟨by assumption, .inl ⟨[], [], rfl, rfl⟩⟩
  | cons as chunks ih =>
      rw [List.mem_cons, not_or] at hne
      rw [readAll] at hread
      split at hread
      · cases hread
        exact ⟨by assumption, .inl ⟨[], as :: chunks, rfl, rfl⟩⟩
      · obtain ⟨s₁, hread₁, hread⟩ := Option.bind_eq_some_iff.mp hread
        rcases hr.saved h (Ne.symm hne.1) hread₁ with hs | ⟨hdone, hsaved⟩
        · obtain ⟨hdone', ⟨taken, left, rfl, htaken⟩ | hsaved⟩ :=
            ih (foldlM_keeps hr.keeps h hs) hne.2 hread
          · refine ⟨hdone', .inl ⟨as :: taken, left, rfl, ?_⟩⟩
            rw [List.flatten_cons, List.foldlM_append, hs]
            exact htaken
          · exact ⟨hdone', .inr hsaved⟩
        · rw [readAll_of_done hdone] at hread
          cases hread
          exact ⟨hdone, .inr hsaved⟩

end ReadsAs

end Chunks

end Incremental
