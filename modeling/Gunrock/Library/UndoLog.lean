import Mathlib.Data.List.Induction
import Mathlib.Logic.Function.Basic
import Mathlib.Tactic.Common

/-!
# Undo logs

A store maps keys to values.  While a transaction is open every write first pushes the
old value of its key onto a log, newest record first; rolling back writes the records
back in that order, and committing forgets them.

The meaning of a history of such operations does not mention the log at all: it is the
list of writes that survive, those *settled* for good and those *pending* in the open
transaction (`Trail`).  `Store.Tracks` is the invariant that links the two, and
`Store.Tracks.step` carries it along a history.  What makes it go through is
`replay_push`: replaying a log that starts with the record of the last write is
replaying its tail before that write.
-/

namespace UndoLog

variable {κ α : Type} [DecidableEq κ]

/-- Write the records of a list one after the other. -/
def replay (log : List (κ × α)) (f : κ → α) : κ → α :=
  log.foldl (fun f r => Function.update f r.1 r.2) f

@[simp] theorem replay_nil (f : κ → α) : replay [] f = f := rfl

@[simp] theorem replay_cons (r : κ × α) (log : List (κ × α)) (f : κ → α) :
    replay (r :: log) f = replay log (Function.update f r.1 r.2) := rfl

theorem replay_append (l l' : List (κ × α)) (f : κ → α) :
    replay (l ++ l') f = replay l' (replay l f) := List.foldl_append

theorem replay_concat (l : List (κ × α)) (k : κ) (v : α) (f : κ → α) :
    replay (l ++ [(k, v)]) f = Function.update (replay l f) k v := by
  rw [replay_append]
  rfl

/-- The record pushed by a write undoes that write. -/
theorem replay_push (log : List (κ × α)) (f : κ → α) (k : κ) (v : α) :
    replay ((k, f k) :: log) (Function.update f k v) = replay log f := by
  rw [replay_cons, Function.update_idem, Function.update_eq_self]

/-- The last value a list of writes leaves at `k`, or `init k` if none writes it. -/
def latest (ws : List (κ × α)) (init : κ → α) (k : κ) : α :=
  ((ws.reverse.find? fun r => r.1 = k).map Prod.snd).getD (init k)

/-- Replaying a list of writes leaves the last one to each key. -/
theorem replay_eq_latest (ws : List (κ × α)) (f : κ → α) : replay ws f = latest ws f := by
  funext k
  induction ws using List.reverseRecOn with
  | nil => rfl
  | append_singleton ws r ih =>
      rw [replay_concat, Function.update_apply, ih]
      by_cases hk : k = r.1
      · simp [latest, hk]
      · rw [if_neg hk]
        simp [latest, Ne.symm hk]

/-! ## Histories -/

/-- What is done to the store. -/
inductive Event (κ α : Type) where
  | begin
  | write (k : κ) (v : α)
  | commit
  | rollback

/-- The writes of a history that have not been rolled back, oldest first. -/
@[ext]
structure Trail (κ α : Type) where
  /-- Those no later rollback can reach. -/
  settled : List (κ × α)
  /-- Those of the open transaction, if there is one. -/
  pending : Option (List (κ × α))

namespace Trail

/-- The empty history. -/
def empty : Trail κ α := ⟨[], none⟩

def step (t : Trail κ α) : Event κ α → Trail κ α
  | .begin => { t with pending := some [] }
  | .write k v => match t.pending with
    | none => { t with settled := t.settled ++ [(k, v)] }
    | some ws => { t with pending := some (ws ++ [(k, v)]) }
  | .commit => ⟨t.settled ++ t.pending.getD [], none⟩
  | .rollback => ⟨t.settled, none⟩

/-- All the surviving writes. -/
def writes (t : Trail κ α) : List (κ × α) := t.settled ++ t.pending.getD []

/-- A transaction is opened only when none is open. -/
def Admits (t : Trail κ α) : Event κ α → Prop
  | .begin => t.pending = none
  | _ => True

omit [DecidableEq κ] in
/-- A settled write stays settled. -/
theorem settled_prefix_step (t : Trail κ α) (e : Event κ α) :
    t.settled <+: (t.step e).settled := by
  cases e with
  | begin => exact List.prefix_rfl
  | write k v =>
      cases hp : t.pending with
      | none => simp [step, hp]
      | some ws => simp [step, hp]
  | commit => exact List.prefix_append _ _
  | rollback => exact List.prefix_rfl

omit [DecidableEq κ] in
/-- Rolling back forgets exactly the writes since the transaction was opened. -/
theorem run_rollback (t : Trail κ α) (ws : List (κ × α)) (h : t.pending = none) :
    ((ws.map fun r => Event.write r.1 r.2).foldl step (t.step .begin)).step .rollback = t := by
  have hrun : ∀ (ws : List (κ × α)) (t : Trail κ α) (ps : List (κ × α)), t.pending = some ps →
      (ws.map fun r => Event.write r.1 r.2).foldl step t = { t with pending := some (ps ++ ws) } := by
    intro ws
    induction ws with
    | nil =>
        intro t ps hp
        simp [Trail.ext_iff, hp]
    | cons r ws ih =>
        intro t ps hp
        rw [List.map_cons, List.foldl_cons, ih _ (ps ++ [r]) (by simp [step, hp])]
        simp [step, hp]
  rw [hrun ws _ [] rfl]
  simp [step, Trail.ext_iff, h]

end Trail

/-- A store with an undo log. -/
structure Store (κ α : Type) where
  cur : κ → α
  /-- A transaction is open. -/
  inTx : Bool
  /-- Newest record first. -/
  log : List (κ × α)

namespace Store

/-- A single write, which is logged when a transaction is open. -/
def write (s : Store κ α) (k : κ) (v : α) : Store κ α :=
  { s with
    cur := Function.update s.cur k v
    log := if s.inTx then (k, s.cur k) :: s.log else s.log }

/-- Rolling back closes the transaction first, so that the records it writes back are
not themselves logged. -/
def step (s : Store κ α) : Event κ α → Store κ α
  | .begin => { s with inTx := true }
  | .write k v => s.write k v
  | .commit => { s with inTx := false, log := [] }
  | .rollback =>
      { (s.log.foldl (fun s r => s.write r.1 r.2) { s with inTx := false }) with log := [] }

/-- Outside a transaction a list of writes is just applied. -/
theorem foldl_write (s : Store κ α) (h : s.inTx = false) (ws : List (κ × α)) :
    ws.foldl (fun s r => s.write r.1 r.2) s = { s with cur := replay ws s.cur } := by
  induction ws generalizing s with
  | nil => rfl
  | cons r ws ih =>
      rw [List.foldl_cons, ih _ (by simpa [write] using h)]
      simp [write, h]

@[simp] theorem step_rollback (s : Store κ α) :
    s.step .rollback = ⟨replay s.log s.cur, false, []⟩ := by
  rw [step, foldl_write _ rfl]

/-- The log and the store remember what the history says: the store holds the surviving
writes, and undoing the log leaves the settled ones. -/
structure Tracks (init : κ → α) (t : Trail κ α) (s : Store κ α) : Prop where
  cur : s.cur = replay t.writes init
  inTx : s.inTx = t.pending.isSome
  undo : replay s.log s.cur = replay t.settled init
  log : t.pending = none → s.log = []

variable {init : κ → α} {t : Trail κ α} {s : Store κ α}

theorem tracks_empty (init : κ → α) : Tracks init .empty ⟨init, false, []⟩ :=
  ⟨rfl, rfl, rfl, fun _ => rfl⟩

/-- One operation keeps the invariant. -/
theorem Tracks.step (h : Tracks init t s) (e : Event κ α) (he : t.Admits e) :
    Tracks init (t.step e) (s.step e) := by
  cases e with
  | begin =>
      have hp : t.pending = none := he
      have hlog := h.log hp
      refine ⟨?_, rfl, ?_, fun h' => by cases h'⟩
      · simpa [Trail.step, Store.step, Trail.writes, hp] using h.cur
      · simpa [Trail.step, Store.step, hlog] using h.undo
  | write k v =>
      cases hp : t.pending with
      | none =>
          have hlog := h.log hp
          have hin : s.inTx = false := by simp [h.inTx, hp]
          have hcur : s.cur = replay t.settled init := by simpa [Trail.writes, hp] using h.cur
          refine ⟨?_, ?_, ?_, fun _ => ?_⟩
          · simp [Trail.step, Store.step, Store.write, Trail.writes, hp, hcur, replay_concat]
          · simp [Trail.step, Store.step, Store.write, hp, hin]
          · simp [Trail.step, Store.step, Store.write, hp, hin, hlog, hcur, replay_concat]
          · simp [Store.step, Store.write, hin, hlog]
      | some ws =>
          have hin : s.inTx = true := by simp [h.inTx, hp]
          refine ⟨?_, ?_, ?_, fun h' => by simp [Trail.step, hp] at h'⟩
          · have hcur : s.cur = replay (t.settled ++ ws) init := by
              simpa [Trail.writes, hp] using h.cur
            simp [Trail.step, Store.step, Store.write, Trail.writes, hp, hcur, replay_append]
          · simp [Trail.step, Store.step, Store.write, hp, hin]
          · simpa [Trail.step, Store.step, Store.write, hp, hin] using
              h.undo
  | commit =>
      refine ⟨?_, rfl, ?_, fun _ => rfl⟩
      · simpa [Trail.step, Store.step, Trail.writes] using h.cur
      · simpa [Trail.step, Store.step, Trail.writes] using h.cur
  | rollback =>
      rw [step_rollback]
      refine ⟨?_, rfl, ?_, fun _ => rfl⟩
      · simpa [Trail.step, Trail.writes] using h.undo
      · simpa [Trail.step] using h.undo

end Store

end UndoLog
