import Gunrock.Library.Wp

/-!
# Programs as scripts of calls

A `Script` is a program whose only steps are calls: a call `op` is answered with an `r`, and
what comes next depends on `r`.  Given what the calls do, a script can be run, or run with a
record of the calls and their answers; the record does not change the run (`map_trace`).

Running a program as a script makes it possible to say something about the calls it has
made, which the program itself forgets.
-/

universe u

/-- A program that makes calls `Op` with answers `R`, and returns an `α`. -/
inductive Script (Op R α : Type u)
  | ret (a : α)
  | call (op : Op) (k : R → Script Op R α)

namespace Script

variable {Op R α β : Type u}

protected def bind : Script Op R α → (α → Script Op R β) → Script Op R β
  | ret a, f => f a
  | call op k, f => call op fun r => (k r).bind f

instance : Monad (Script Op R) where
  pure := ret
  bind := Script.bind

/-- One call. -/
def ask (op : Op) : Script Op R R := call op ret

@[simp] theorem pure_eq (a : α) : (pure a : Script Op R α) = ret a := rfl

@[simp] theorem ret_bind (a : α) (f : α → Script Op R β) : ret a >>= f = f a := rfl

@[simp] theorem call_bind (op : Op) (k : R → Script Op R α) (f : α → Script Op R β) :
    call op k >>= f = call op fun r => k r >>= f := rfl

theorem ite_bind {c : Prop} [Decidable c] (s t : Script Op R α) (f : α → Script Op R β) :
    (if c then s else t) >>= f = if c then s >>= f else t >>= f := by
  split <;> rfl

@[simp] theorem ask_bind (op : Op) (f : R → Script Op R β) : ask op >>= f = call op f := rfl

/-! ## Running -/

section Run

variable {m : Type u → Type u} [Monad m] (h : Op → m R)

/-- The run, when the calls do what `h` says. -/
def run : Script Op R α → m α
  | ret a => pure a
  | call op k => do (k (← h op)).run

/-- The run with a record of the calls and their answers, in order. -/
def trace : Script Op R α → m (α × List (Op × R))
  | ret a => pure (a, [])
  | call op k => do
    let r ← h op
    let (a, calls) ← (k r).trace
    return (a, (op, r) :: calls)

variable [LawfulMonad m]

@[simp] theorem run_bind (s : Script Op R α) (f : α → Script Op R β) :
    (s >>= f).run h = s.run h >>= fun a => (f a).run h := by
  induction s with
  | ret a => exact (pure_bind a fun a => (f a).run h).symm
  | call op k ih =>
      rw [call_bind, run, run, bind_assoc]
      exact bind_congr fun r => ih r

omit [LawfulMonad m] in
theorem run_ask_bind (op : Op) (f : R → Script Op R β) :
    (ask op >>= f).run h = h op >>= fun r => (f r).run h := rfl

omit [LawfulMonad m] in
@[simp] theorem run_ret (a : α) : (ret a : Script Op R α).run h = pure a := rfl

omit [LawfulMonad m] in
theorem run_ite {c : Prop} [Decidable c] (s s' : Script Op R α) :
    (if c then s else s').run h = if c then s.run h else s'.run h := by
  split <;> rfl

/-- The record is all that a trace adds. -/
theorem map_trace (s : Script Op R α) : (fun a => a.1) <$> s.trace h = s.run h := by
  induction s with
  | ret a => rw [trace, run, map_pure]
  | call op k ih =>
      rw [trace, run, map_bind]
      refine bind_congr fun r => ?_
      rw [← ih r, map_bind, map_eq_pure_bind]
      exact bind_congr fun a => map_pure _ _

end Run

/-! ## Scripts that make only some calls -/

/-- Whatever the answers, every call satisfies `P`. -/
def All (P : Op → Prop) : Script Op R α → Prop
  | ret _ => True
  | call op k => P op ∧ ∀ r, (k r).All P

section All

variable {P : Op → Prop} {s : Script Op R α} {f : α → Script Op R β}

theorem All.bind (hs : s.All P) (hf : ∀ a, (f a).All P) : (s >>= f).All P := by
  induction s with
  | ret a => exact hf a
  | call op k ih => exact ⟨hs.1, fun r => ih r (hs.2 r)⟩

theorem All.ite {c : Prop} [Decidable c] {t : Script Op R α} (hs : s.All P) (ht : t.All P) :
    (if c then s else t).All P := by
  split
  · exact hs
  · exact ht

end All

/-- Whatever the answers, what is returned satisfies `P`. -/
def Ends (P : α → Prop) : Script Op R α → Prop
  | ret a => P a
  | call _ k => ∀ r, (k r).Ends P

section Ends

variable {P : α → Prop} {P' : β → Prop} {s : Script Op R α} {f : α → Script Op R β}

theorem Ends.bind (hs : s.Ends P) (hf : ∀ a, P a → (f a).Ends P') : (s >>= f).Ends P' := by
  induction s with
  | ret a => exact hf a hs
  | call op k ih => exact fun r => ih r (hs r)

theorem Ends.ite {c : Prop} [Decidable c] {t : Script Op R α} (hs : s.Ends P) (ht : t.Ends P) :
    (if c then s else t).Ends P := by
  split
  · exact hs
  · exact ht

end Ends

/-! ## Rules -/

section Rules

open Wp

variable {σ ε : Type u} {h : Op → StateT σ (Except ε) R} {c : Prop} {op : Op}
  {k : R → Script Op R α} {s : Script Op R α} {Q : α × List (Op × R) → σ → Prop} {t : σ}

@[simp] theorem wp_trace_call : wp ((call op k).trace h) Q t ↔
    wp (h op) (fun r => wp ((k r).trace h) fun a => Q (a.1, (op, r) :: a.2)) t := by
  simp only [trace, wp_bind, wp_pure]

@[simp] theorem wlp_trace_call : wlp ((call op k).trace h) Q t ↔
    wlp (h op) (fun r => wlp ((k r).trace h) fun a => Q (a.1, (op, r) :: a.2)) t := by
  simp only [trace, wlp_bind, wlp_pure]

@[simp] theorem wp_trace_ret (a : α) : wp ((ret a : Script Op R α).trace h) Q t ↔ Q (a, []) t := by
  rw [trace, wp_pure]

@[simp] theorem wlp_trace_ret (a : α) :
    wlp ((ret a : Script Op R α).trace h) Q t ↔ Q (a, []) t := by
  rw [trace, wlp_pure]

theorem wp_run {s : Script Op R α} {P : α → σ → Prop} :
    wp (s.run h) P t ↔ wp (s.trace h) (fun a => P a.1) t := by
  rw [← map_trace, map_eq_pure_bind, wp_bind]
  simp only [wp_pure]

/-- A call of which it is known that it returns. -/
theorem decides_trace_call
    (hop : wp (h op) (fun r => Decides c ((k r).trace h) fun a => Q (a.1, (op, r) :: a.2)) t) :
    Decides c ((call op k).trace h) Q t := by
  refine ⟨fun hc => ?_, fun hc => ?_⟩
  · rw [wlp_trace_call]
    exact wlp_mono (wlp_of_wp hop) fun r t' hd => hd.of hc
  · rw [wp_trace_call]
    exact wp_mono hop fun r t' hd => hd.not hc

theorem Ends.wlp_run {s : Script Op R α} {P : α → Prop} (hs : s.Ends P) :
    wlp (s.run h) (fun a _ => P a) t := by
  induction s generalizing t with
  | ret a =>
      rw [run_ret, wlp_pure]
      exact hs
  | call op k ih => exact wlp_bind.mpr fun r t' _ => ih r (hs r)

theorem All.wlp_trace {P : Op → Prop} (hs : s.All P) :
    wlp (s.trace h) (fun a _ => ∀ e ∈ a.2, P e.1) t := by
  induction s generalizing t with
  | ret a =>
      rw [wlp_trace_ret]
      simp
  | call op k ih =>
      rw [wlp_trace_call]
      refine fun r t' _ => wlp_mono (ih r (hs.2 r)) fun a _ ha => ?_
      exact List.forall_mem_cons.mpr ⟨hs.1, ha⟩

/-- What every call keeps, a script of such calls keeps. -/
theorem All.wlp_keeps {s : Script Op R α} {P : Op → Prop} {I : σ → Prop} (hs : s.All P)
    (hop : ∀ op, P op → ∀ t, I t → wlp (h op) (fun _ => I) t) (ht : I t) :
    wlp (s.run h) (fun _ => I) t := by
  induction s generalizing t with
  | ret a =>
      rw [run_ret, wlp_pure]
      exact ht
  | call op k ih =>
      rw [run, wlp_bind]
      exact wlp_mono (hop op hs.1 t ht) fun r t' ht' => ih r (hs.2 r) ht'

/-- If every call returns, a script of such calls does. -/
theorem All.wp_keeps {s : Script Op R α} {P : Op → Prop} {I : σ → Prop} (hs : s.All P)
    (hop : ∀ op, P op → ∀ t, I t → wp (h op) (fun _ => I) t) (ht : I t) :
    wp (s.run h) (fun _ => I) t := by
  induction s generalizing t with
  | ret a =>
      rw [run_ret, wp_pure]
      exact ht
  | call op k ih =>
      rw [run, wp_bind]
      exact wp_mono (hop op hs.1 t ht) fun r t' ht' => ih r (hs.2 r) ht'

end Rules

end Script
