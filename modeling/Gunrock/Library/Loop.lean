import Gunrock.Library.Wp

/-!
# Loops over inputs

A program that is run on one input after the other, until there are no more or a result stops it: the
loop of a server.  What each round keeps the loop keeps, where the invariant may speak of all results
so far.
-/

universe u v

variable {σ ε β : Type u} {α : Type v}

namespace Wp

section Loop

variable (body : α → StateT σ (Except ε) β) (stops : β → Bool)

/-- The results of `body` on the inputs, up to the first one that stops the loop. -/
def loop : List α → StateT σ (Except ε) (List β)
  | [] => pure []
  | a :: as => do
    let b ← body a
    if stops b then return [b] else return b :: (← loop as)

/-- The inputs that are taken, up to the first one that stops. -/
def upTo (p : α → Bool) : List α → List α
  | [] => []
  | a :: as => if p a then [a] else a :: upTo p as

end Loop

variable {body : α → StateT σ (Except ε) β} {stops : β → Bool} {I : List β → σ → Prop}
  {R : α → β → Prop} {p : α → Bool} {as : List α} {s : σ}

/-- An invariant of the results so far, the last one first, and the state. -/
theorem wlp_loop (hbody : ∀ a ∈ as, ∀ l s, I l s → wlp (body a) (fun b s' => I (b :: l) s') s)
    {l : List β} (h : I l s) :
    wlp (loop body stops as) (fun out s' => I (out.reverse ++ l) s') s := by
  induction as generalizing l s with
  | nil => exact (wlp_pure _).mpr h
  | cons a as ih =>
      rw [loop, wlp_bind]
      refine wlp_mono (hbody a List.mem_cons_self l s h) fun b s' hb => ?_
      split
      · exact (wlp_pure _).mpr hb
      · rw [wlp_bind]
        have hmore := ih (fun a ha => hbody a (List.mem_cons_of_mem _ ha)) hb
        refine wlp_mono hmore fun out s'' hout => (wlp_pure _).mpr ?_
        rwa [List.reverse_cons, List.append_assoc]

/-- Every round returns, and so does the loop. -/
theorem wp_loop (hbody : ∀ a ∈ as, ∀ l s, I l s → wp (body a) (fun b s' => I (b :: l) s') s)
    {l : List β} (h : I l s) :
    wp (loop body stops as) (fun out s' => I (out.reverse ++ l) s') s := by
  induction as generalizing l s with
  | nil => exact (wp_pure _).mpr h
  | cons a as ih =>
      rw [loop, wp_bind]
      refine wp_mono (hbody a List.mem_cons_self l s h) fun b s' hb => ?_
      split
      · exact (wp_pure _).mpr hb
      · rw [wp_bind]
        have hmore := ih (fun a ha => hbody a (List.mem_cons_of_mem _ ha)) hb
        refine wp_mono hmore fun out s'' hout => (wp_pure _).mpr ?_
        rwa [List.reverse_cons, List.append_assoc]

/-- Where it is known from an input whether its result stops the loop, there is a result for each of
the inputs that are taken. -/
theorem wlp_loop_upTo (hstops : ∀ a b, R a b → stops b = p a)
    (hbody : ∀ a ∈ as, ∀ s, wlp (body a) (fun b _ => R a b) s) :
    wlp (loop body stops as) (fun out _ => List.Forall₂ R (upTo p as) out) s := by
  induction as generalizing s with
  | nil => exact (wlp_pure _).mpr .nil
  | cons a as ih =>
      rw [loop, wlp_bind]
      refine wlp_mono (hbody a List.mem_cons_self s) fun b s' hb => ?_
      rw [upTo, ← hstops a b hb]
      split
      · exact (wlp_pure _).mpr (.cons hb .nil)
      · rw [wlp_bind]
        refine wlp_mono (ih fun a ha => hbody a (List.mem_cons_of_mem _ ha)) fun out s'' hout => ?_
        exact (wlp_pure _).mpr (.cons hb hout)

end Wp
