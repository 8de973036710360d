import Gunrock.Disk

/-!
# Histories of disk calls

A client of the disk sees blocks and transactions, not an undo log.  Its view of a history
of calls is an `UndoLog.Trail`: the writes that survive, and those that the open
transaction could still take back.  `runCalls_trail` says that the disk agrees with that
view after every history in which transactions are not nested: what it holds, what it
answers to reads, and that no record outlives its transaction.
-/

namespace Gunrock

namespace Disk

open UndoLog Wp

/-- A call to the disk. -/
inductive Call where
  | beginTransaction
  | writeBlock (blockNumber : Int) (buffer : Block)
  | readBlock (blockNumber : Int)
  | commit
  | rollback

namespace Call

/-- Run a call; the result is the block that was read, if it was a read. -/
def run : Call → FS (Option Block)
  | .beginTransaction => do
    Disk.beginTransaction
    return none
  | .writeBlock b v => do
    Disk.writeBlock b v
    return none
  | .readBlock b => do return some (← Disk.readBlock b)
  | .commit => do
    Disk.commit
    return none
  | .rollback => do
    Disk.rollback
    return none

/-- What a call does to the trail. -/
def after (t : Trail Nat Block) : Call → Trail Nat Block
  | .beginTransaction => t.step .begin
  | .writeBlock b v => t.step (.write b.toNat v)
  | .readBlock _ => t
  | .commit => t.step .commit
  | .rollback => t.step .rollback

/-- What a call should answer on an image that was `init` at first. -/
def answer (init : Nat → Block) (t : Trail Nat Block) : Call → Option Block
  | .readBlock b => some (latest t.writes init b.toNat)
  | _ => none

/-- Blocks are in range and transactions are not nested. -/
def Admissible (d : Disk) (t : Trail Nat Block) : Call → Prop
  | .beginTransaction => t.pending = none
  | .writeBlock b _ => d.InRange b
  | .readBlock b => d.InRange b
  | .commit => True
  | .rollback => True

/-- Reads and writes, the calls that neither open nor close a transaction. -/
def IsAccess : Call → Prop
  | .writeBlock _ _ => True
  | .readBlock _ => True
  | _ => False

end Call

/-- Run calls one after the other and collect what they answer. -/
def runCalls : List Call → FS (List (Option Block))
  | [] => return []
  | c :: cs => do
    let a ← c.run
    return a :: (← runCalls cs)

/-- The answers that a list of calls should give. -/
def answers (init : Nat → Block) : Trail Nat Block → List Call → List (Option Block)
  | _, [] => []
  | t, c :: cs => c.answer init t :: answers init (c.after t) cs

/-- Every call of the list is admissible where it stands. -/
def AdmissibleAll (d : Disk) : Trail Nat Block → List Call → Prop
  | _, [] => True
  | t, c :: cs => c.Admissible d t ∧ AdmissibleAll d (c.after t) cs

/-- The disk as a store with an undo log. -/
def toStore (d : Disk) : Store Nat Block := ⟨d.image, d.isInTransaction, records d.undoLog⟩

/-- The disk is in the state that the history `t` of an image `init` leads to. -/
structure Follows (init : Nat → Block) (n : Int) (t : Trail Nat Block) (d : Disk) : Prop where
  tracks : Store.Tracks init t d.toStore
  inRange : ∀ r ∈ d.undoLog, d.InRange r.blockNumber
  blocks : d.numberOfBlocks = n

variable {init : Nat → Block} {n : Int} {t : Trail Nat Block} {d : Disk}

theorem Closed.follows (h : d.Closed) : Follows d.image d.numberOfBlocks .empty d := by
  refine ⟨?_, by simp [h.undoLog], rfl⟩
  have hs : d.toStore = ⟨d.image, false, []⟩ := by
    simp [toStore, h.isClosed, h.undoLog, records]
  rw [hs]
  exact Store.tracks_empty _

theorem Follows.image (h : Follows init n t d) : d.image = latest t.writes init :=
  h.tracks.cur.trans (replay_eq_latest _ _)

theorem toStore_store (b : Int) (v : Block) :
    (d.store b v).toStore = d.toStore.step (.write b.toNat v) := by
  cases h : d.isInTransaction <;> simp [toStore, Disk.store, Store.step, Store.write, h, records]

theorem wp_rollback (hrange : ∀ r ∈ d.undoLog, d.InRange r.blockNumber)
    {Q : PUnit → Disk → Prop}
    (hQ : ∀ d' : Disk, d'.toStore = d.toStore.step .rollback → d'.undoLog = [] →
      d'.numberOfBlocks = d.numberOfBlocks → Q ⟨⟩ d') : wp rollback Q d := by
  simp only [rollback, wp_bind, wp_modify, wp_get]
  rw [wp_undo d.undoLog { d with isInTransaction := false } rfl hrange]
  refine hQ _ ?_ rfl rfl
  rw [Store.step_rollback]
  rfl

/-- One call keeps the disk in step with the trail, and answers as the trail says. -/
theorem wp_call (h : Follows init n t d) {c : Call} (hc : c.Admissible d t) :
    wp c.run (fun a d' => a = c.answer init t ∧ Follows init n (c.after t) d') d := by
  cases c with
  | beginTransaction =>
      have hopen : d.isInTransaction = false := by
        have hin : d.isInTransaction = t.pending.isSome := h.tracks.inTx
        rw [hin, show t.pending = none from hc]
        rfl
      simp only [Call.run, wp_bind, wp_beginTransaction hopen, wp_pure]
      exact ⟨rfl, h.tracks.step .begin hc, h.inRange, h.blocks⟩
  | writeBlock b v =>
      simp only [Call.run, wp_bind, wp_writeBlock hc, wp_pure]
      refine ⟨rfl, ?_, fun r hr => ?_, h.blocks⟩
      · rw [toStore_store]
        exact h.tracks.step (.write b.toNat v) trivial
      · cases hin : d.isInTransaction with
        | false => exact h.inRange r (by simpa [Disk.store, hin] using hr)
        | true =>
            simp only [Disk.store, hin, if_true, List.mem_cons] at hr
            rcases hr with rfl | hr
            · exact hc
            · exact h.inRange r hr
  | readBlock b =>
      simp only [Call.run, wp_bind, wp_readBlock hc, wp_pure]
      exact ⟨by rw [h.image]; rfl, h⟩
  | commit =>
      simp only [Call.run, wp_bind, wp_commit, wp_pure]
      exact ⟨rfl, h.tracks.step .commit trivial, by simp, h.blocks⟩
  | rollback =>
      simp only [Call.run, wp_bind]
      refine wp_rollback h.inRange fun d' hs hlog hn => ?_
      rw [wp_pure]
      refine ⟨rfl, ?_, by simp [hlog], hn.trans h.blocks⟩
      rw [hs]
      exact h.tracks.step .rollback trivial

theorem Admissible.of_blocks {d' : Disk} (hn : d'.numberOfBlocks = d.numberOfBlocks) {c : Call}
    (h : c.Admissible d t) : c.Admissible d' t := by
  cases c <;> simp_all [Call.Admissible, InRange]

/-- A list of calls keeps the disk in step with the trail. -/
theorem wp_runCalls {d₀ : Disk} (cs : List Call) (h : Follows init d₀.numberOfBlocks t d)
    (hcs : AdmissibleAll d₀ t cs) :
    wp (runCalls cs) (fun as d' => as = answers init t cs ∧
      Follows init d₀.numberOfBlocks (cs.foldl Call.after t) d') d := by
  induction cs generalizing t d with
  | nil => simpa [runCalls, answers] using h
  | cons c cs ih =>
      rw [runCalls, wp_bind]
      refine wp_mono (wp_call h (Admissible.of_blocks h.blocks hcs.1)) fun a d₁ ⟨ha, h₁⟩ => ?_
      rw [wp_bind]
      refine wp_mono (ih h₁ hcs.2) fun as d₂ ⟨has, h₂⟩ => ?_
      rw [wp_pure]
      exact ⟨by rw [answers, ha, has], h₂⟩

/-- Accesses between opening a transaction and rolling it back leave no trace. -/
theorem foldl_after_rollback {mid : List Call} (hmid : ∀ c ∈ mid, c.IsAccess)
    (ht : t.pending = none) :
    Call.after (mid.foldl Call.after (Call.after t .beginTransaction)) .rollback = t := by
  have hwrites : ∀ (mid : List Call) (s : Trail Nat Block), (∀ c ∈ mid, c.IsAccess) →
      ∃ ws : List (Nat × Block), mid.foldl Call.after s =
        (ws.map fun r => Event.write r.1 r.2).foldl Trail.step s := by
    intro mid
    induction mid with
    | nil => exact fun s _ => ⟨[], rfl⟩
    | cons c mid ih =>
        intro s h
        obtain ⟨ws, hws⟩ := ih (Call.after s c) fun c' hc' => h c' (List.mem_cons_of_mem _ hc')
        have hc := h c List.mem_cons_self
        cases c with
        | writeBlock b v => exact ⟨(b.toNat, v) :: ws, hws⟩
        | readBlock b => exact ⟨ws, hws⟩
        | beginTransaction => cases hc
        | commit => cases hc
        | rollback => cases hc
  obtain ⟨ws, hws⟩ := hwrites mid (Call.after t .beginTransaction) hmid
  rw [hws]
  exact t.run_rollback ws ht

theorem settled_prefix_after (t : Trail Nat Block) (c : Call) :
    t.settled <+: (c.after t).settled := by
  cases c with
  | readBlock b => exact List.prefix_rfl
  | beginTransaction => exact t.settled_prefix_step .begin
  | writeBlock b v => exact t.settled_prefix_step (.write b.toNat v)
  | commit => exact t.settled_prefix_step .commit
  | rollback => exact t.settled_prefix_step .rollback

theorem settled_prefix_foldl (cs : List Call) (t : Trail Nat Block) :
    t.settled <+: (cs.foldl Call.after t).settled := by
  induction cs generalizing t with
  | nil => exact List.prefix_rfl
  | cons c cs ih => exact (settled_prefix_after t c).trans (ih _)

theorem admissibleAll_append {cs cs' : List Call} :
    AdmissibleAll d t (cs ++ cs') ↔
      AdmissibleAll d t cs ∧ AdmissibleAll d (cs.foldl Call.after t) cs' := by
  induction cs generalizing t with
  | nil => simp [AdmissibleAll]
  | cons c cs ih => simp [AdmissibleAll, ih, and_assoc]

/-- Transactions over any history: from a disk with no transaction open, every list of
calls with blocks in range and without nested transactions runs to its end, and

* each read answers the latest value written and not rolled back;
* so does the image at the end;
* after a commit or a rollback no transaction is open and the undo log is empty;
* a write that no open transaction can take back is never taken back;
* a rollback restores every block to what it was at the matching `beginTransaction`. -/
theorem runCalls_trail (d : Disk) (hd : d.Closed) (cs : List Call)
    (hcs : AdmissibleAll d .empty cs) :
    wp (runCalls cs) (fun as d' =>
      as = answers d.image .empty cs ∧
      (∀ b, d'.image b = latest (cs.foldl Call.after .empty).writes d.image b) ∧
      (∀ pre c, cs = pre ++ [c] → c = .commit ∨ c = .rollback → d'.Closed) ∧
      (∀ pre suf, cs = pre ++ suf → (pre.foldl Call.after .empty).settled <+:
        (cs.foldl Call.after .empty).settled) ∧
      (∀ pre mid, cs = pre ++ .beginTransaction :: mid ++ [.rollback] → (∀ c ∈ mid, c.IsAccess) →
        wp (runCalls pre) (fun _ d₀ => ∀ b, d'.image b = d₀.image b) d)) d := by
  refine wp_mono (wp_runCalls cs hd.follows hcs) fun as d' ⟨has, hfollows⟩ => ?_
  have himage : ∀ b, d'.image b = latest (cs.foldl Call.after .empty).writes d.image b :=
    fun b => by rw [hfollows.image]
  refine ⟨has, himage, ?_, ?_, ?_⟩
  · rintro pre c rfl hc
    have hpending : ((pre ++ [c]).foldl Call.after .empty).pending = none := by
      rw [List.foldl_append]
      rcases hc with rfl | rfl <;> rfl
    have hin : d'.isInTransaction = _ := hfollows.tracks.inTx
    refine ⟨by rw [hin, hpending]; rfl, ?_⟩
    have hlog : records d'.undoLog = [] := hfollows.tracks.log hpending
    simpa [records] using hlog
  · rintro pre suf rfl
    rw [List.foldl_append]
    exact settled_prefix_foldl _ _
  · rintro pre mid rfl hmid
    rw [List.append_assoc] at hcs
    obtain ⟨hpre, hrest⟩ := admissibleAll_append.mp hcs
    refine wp_mono (wp_runCalls pre hd.follows hpre) fun _ d₀ ⟨_, h₀⟩ b => ?_
    rw [himage, h₀.image, List.append_assoc, List.foldl_append, List.cons_append,
      List.foldl_cons, List.foldl_append]
    exact congrArg (fun t => latest (Trail.writes t) d.image b)
      (foldl_after_rollback hmid hrest.1)

theorem exists_runCalls_trail : ∃ d : Disk, d.Closed ∧
    wp (runCalls [.beginTransaction, .writeBlock 0 (Buffer.zero.set 0 1), .readBlock 0, .rollback,
      .readBlock 0]) (fun as d' => as = [none, none, some (Buffer.zero.set 0 1), none,
        some Buffer.zero] ∧ d'.image 0 = Buffer.zero) d := by
  let d : Disk := ⟨4096, fun _ => Buffer.zero, false, [], []⟩
  refine ⟨d, ⟨rfl, rfl⟩, wp_mono (runCalls_trail d ⟨rfl, rfl⟩ _ ?_) fun as d' h => ?_⟩
  · exact ⟨rfl, ⟨by decide, by decide⟩, ⟨by decide, by decide⟩, trivial, ⟨by decide, by decide⟩,
      trivial⟩
  · exact ⟨h.1, h.2.1 0⟩

end Disk

end Gunrock
