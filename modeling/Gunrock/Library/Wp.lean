import Mathlib.Tactic.Common

/-!
# Preconditions for stateful programs that may stop

A program here is a `StateT σ (Except ε) α`: it reads and writes a state `σ`, and may
stop for good with some `ε`, in which case there is no state to go on from.

* `wp m Q s` says that `m`, started from `s`, returns and that what it returns
  satisfies `Q`: total correctness, so a program that stops satisfies no `wp`.
* `wlp m Q s` says that *if* `m` returns from `s`, then what it returns satisfies `Q`.

Both are computed along the structure of the program by the equations below, which
are the rules one uses to prove a triple.  Programs are deterministic, so a run that is
known to return is described by either (`Wp.wlp_of_wp`).
-/

universe u

variable {σ ε : Type u} {α β : Type u}

/-- `m` returns from `s`, with a result and a state that satisfy `Q`. -/
def wp (m : StateT σ (Except ε) α) (Q : α → σ → Prop) (s : σ) : Prop :=
  ∃ a s', m.run s = .ok (a, s') ∧ Q a s'

/-- If `m` returns from `s`, its result and state satisfy `Q`. -/
def wlp (m : StateT σ (Except ε) α) (Q : α → σ → Prop) (s : σ) : Prop :=
  ∀ a s', m.run s = .ok (a, s') → Q a s'

namespace Wp

variable {m : StateT σ (Except ε) α} {k : α → StateT σ (Except ε) β}
variable {Q R : α → σ → Prop} {s : σ}

/-! ## Consequence -/

theorem wp_mono (h : wp m Q s) (hQ : ∀ a s', Q a s' → R a s') : wp m R s := by
  obtain ⟨a, s', hm, hq⟩ := h
  exact ⟨a, s', hm, hQ a s' hq⟩

theorem wlp_mono (h : wlp m Q s) (hQ : ∀ a s', Q a s' → R a s') : wlp m R s :=
  fun a s' hm => hQ a s' (h a s' hm)

/-- Two runs that are the same. -/
theorem wp_congr_run {m' : StateT σ (Except ε) α} {s' : σ} (h : m.run s = m'.run s') :
    wp m Q s ↔ wp m' Q s' := by
  rw [wp, wp, h]

theorem wlp_congr_run {m' : StateT σ (Except ε) α} {s' : σ} (h : m.run s = m'.run s') :
    wlp m Q s ↔ wlp m' Q s' := by
  rw [wlp, wlp, h]

/-- A run that is known to return is the only one there is. -/
theorem wlp_of_wp (h : wp m Q s) : wlp m Q s := by
  obtain ⟨a, s', hm, hq⟩ := h
  intro b t hb
  rw [hm] at hb
  cases hb
  exact hq

theorem wlp_and (h : wlp m Q s) (h' : wlp m R s) : wlp m (fun a s' => Q a s' ∧ R a s') s :=
  fun a s' hm => ⟨h a s' hm, h' a s' hm⟩

/-- What is known of every run is known of the one there is. -/
theorem wp_and_wlp (h : wp m Q s) (h' : wlp m R s) : wp m (fun a s' => Q a s' ∧ R a s') s := by
  obtain ⟨a, s', hm, hq⟩ := h
  exact ⟨a, s', hm, hq, h' a s' hm⟩

/-- The exact condition for what is returned by a run that is known to return. -/
theorem wp_iff_of_wp {c : Prop} (h : wp m (fun a s' => Q a s' ↔ c) s) : wp m Q s ↔ c := by
  refine ⟨fun hq => ?_, fun hc => wp_mono h fun _ _ hiff => hiff.mpr hc⟩
  obtain ⟨a, s', hm, hiff⟩ := h
  exact hiff.mp (wlp_of_wp hq a s' hm)

/-! ## Sequencing -/

@[simp] theorem wp_pure (a : α) : wp (pure a : StateT σ (Except ε) α) Q s ↔ Q a s := by
  constructor
  · rintro ⟨b, t, h, hq⟩
    cases h
    exact hq
  · exact fun h => ⟨a, s, rfl, h⟩

@[simp] theorem wlp_pure (a : α) : wlp (pure a : StateT σ (Except ε) α) Q s ↔ Q a s := by
  constructor
  · exact fun h => h a s rfl
  · intro h b t hb
    cases hb
    exact h

theorem run_bind_ok {b : β} {t : σ} :
    (m >>= k).run s = .ok (b, t) ↔ ∃ a s', m.run s = .ok (a, s') ∧ (k a).run s' = .ok (b, t) := by
  rw [StateT.run_bind]
  rcases m.run s with e | ⟨a, s'⟩
  · constructor
    · intro h
      cases h
    · rintro ⟨_, _, h, _⟩
      cases h
  · constructor
    · exact fun h => ⟨a, s', rfl, h⟩
    · rintro ⟨_, _, h, hk⟩
      cases h
      exact hk

theorem run_bind_of_ok {a : α} {s' : σ} (h : m.run s = .ok (a, s')) :
    (m >>= k).run s = (k a).run s' := by
  rw [StateT.run_bind, h]
  rfl

theorem run_bind_error {e : ε} (h : m.run s = .error e) : (m >>= k).run s = .error e := by
  rw [StateT.run_bind, h]
  rfl

@[simp] theorem wp_bind {Q : β → σ → Prop} :
    wp (m >>= k) Q s ↔ wp m (fun a s' => wp (k a) Q s') s := by
  constructor
  · rintro ⟨b, t, h, hq⟩
    obtain ⟨a, s', hm, hk⟩ := run_bind_ok.mp h
    exact ⟨a, s', hm, b, t, hk, hq⟩
  · rintro ⟨a, s', hm, b, t, hk, hq⟩
    exact ⟨b, t, run_bind_ok.mpr ⟨a, s', hm, hk⟩, hq⟩

@[simp] theorem wlp_bind {Q : β → σ → Prop} :
    wlp (m >>= k) Q s ↔ wlp m (fun a s' => wlp (k a) Q s') s := by
  constructor
  · exact fun h a s' hm b t hk => h b t (run_bind_ok.mpr ⟨a, s', hm, hk⟩)
  · intro h b t hb
    obtain ⟨a, s', hm, hk⟩ := run_bind_ok.mp hb
    exact h a s' hm b t hk

/-- A program that returns an error need not keep what is promised of other results. -/
theorem wlp_pure_error {δ : Type u} {P : α → σ → Prop} (e : δ) (s : σ) :
    wlp (pure (.error e) : StateT σ (Except ε) (Except δ α))
      (fun out s' => ∀ a, out = .ok a → P a s') s := by
  rw [wlp_pure]
  rintro a ⟨⟩

/-- What `m` returns does not matter. -/
theorem wlp_bind_of {Q : β → σ → Prop} (h : ∀ a s', wlp (k a) Q s') : wlp (m >>= k) Q s :=
  wlp_bind.mpr fun a s' _ => h a s'

/-! ## State, failure and branching -/

@[simp] theorem wp_get {Q : σ → σ → Prop} :
    wp (get : StateT σ (Except ε) σ) Q s ↔ Q s s := wp_pure (σ := σ) (ε := ε) (Q := Q) s

@[simp] theorem wlp_get {Q : σ → σ → Prop} :
    wlp (get : StateT σ (Except ε) σ) Q s ↔ Q s s := wlp_pure (σ := σ) (ε := ε) (Q := Q) s

@[simp] theorem wp_set {Q : PUnit → σ → Prop} (t : σ) :
    wp (set t : StateT σ (Except ε) PUnit) Q s ↔ Q ⟨⟩ t := by
  constructor
  · rintro ⟨_, _, h, hq⟩
    cases h
    exact hq
  · exact fun h => ⟨⟨⟩, t, rfl, h⟩

@[simp] theorem wlp_set {Q : PUnit → σ → Prop} (t : σ) :
    wlp (set t : StateT σ (Except ε) PUnit) Q s ↔ Q ⟨⟩ t := by
  constructor
  · exact fun h => h _ _ rfl
  · intro h _ _ hb
    cases hb
    exact h

@[simp] theorem wp_modify {Q : PUnit → σ → Prop} (f : σ → σ) :
    wp (modify f : StateT σ (Except ε) PUnit) Q s ↔ Q ⟨⟩ (f s) := by
  constructor
  · rintro ⟨_, _, h, hq⟩
    cases h
    exact hq
  · exact fun h => ⟨⟨⟩, f s, rfl, h⟩

@[simp] theorem wlp_modify {Q : PUnit → σ → Prop} (f : σ → σ) :
    wlp (modify f : StateT σ (Except ε) PUnit) Q s ↔ Q ⟨⟩ (f s) := by
  constructor
  · exact fun h => h _ _ rfl
  · intro h _ _ hb
    cases hb
    exact h

@[simp] theorem wp_throw (e : ε) : wp (throw e : StateT σ (Except ε) α) Q s ↔ False := by
  constructor
  · rintro ⟨_, _, h, _⟩
    cases h
  · exact False.elim

@[simp] theorem wlp_throw (e : ε) : wlp (throw e : StateT σ (Except ε) α) Q s ↔ True := by
  refine ⟨fun _ => trivial, fun _ _ _ h => ?_⟩
  cases h

theorem wp_ite {c : Prop} [Decidable c] {m' : StateT σ (Except ε) α} :
    wp (if c then m else m') Q s ↔ (c → wp m Q s) ∧ (¬ c → wp m' Q s) := by
  by_cases h : c <;> simp [h]

theorem wlp_ite {c : Prop} [Decidable c] {m' : StateT σ (Except ε) α} :
    wlp (if c then m else m') Q s ↔ (c → wlp m Q s) ∧ (¬ c → wlp m' Q s) := by
  by_cases h : c <;> simp [h]

/-! ## Exact conditions

`Decides c m Q s` gives the exact condition for a partial correctness statement. -/

/-- Under `c`, what `m` returns from `s` satisfies `Q`; otherwise `m` returns something that
does not. -/
structure Decides (c : Prop) (m : StateT σ (Except ε) α) (Q : α → σ → Prop) (s : σ) : Prop where
  of : c → wlp m Q s
  not : ¬ c → wp m (fun a s' => ¬ Q a s') s

section Decides

variable {c c' : Prop}

theorem Decides.wlp_iff (h : Decides c m Q s) : wlp m Q s ↔ c := by
  refine ⟨fun hq => ?_, h.of⟩
  by_contra hc
  obtain ⟨a, s', hm, hno⟩ := h.not hc
  exact hno (hq a s' hm)

theorem Decides.of_wp (h : wp m (fun a s' => Q a s' ↔ c) s) : Decides c m Q s :=
  ⟨fun hc => wlp_mono (wlp_of_wp h) fun _ _ hq => hq.mpr hc,
    fun hc => wp_mono h fun _ _ hq => hq.not.mpr hc⟩

theorem Decides.congr (h : Decides c m Q s) (hc : c' ↔ c) (hQ : ∀ a s', R a s' ↔ Q a s') :
    Decides c' m R s :=
  ⟨fun h' => wlp_mono (h.of (hc.mp h')) fun a s' => (hQ a s').mpr,
    fun h' => wp_mono (h.not (hc.not.mp h')) fun a s' => (hQ a s').not.mpr⟩

end Decides

end Wp
