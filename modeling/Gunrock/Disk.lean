import Gunrock.Library.UndoLog
import Gunrock.Library.Wp
import Gunrock.Ufs

/-!
# The disk and its transactions

`Disk.h` and `Disk.cpp`: an image file of 4096-byte blocks, and transactions over it that
are undone by a log of old block contents.

Everything above this file is a program in `FS`, which carries the disk along and may
stop for good with a `Crash`.  A crash is either an `exit(1)` of the disk, or a place
where the C++ code has no defined behaviour to model: an array index out of bounds, or a
loop counter past `INT_MAX`.

`Disk.written` is not in the source: it records the block numbers handed to `writeBlock`,
latest first, so that one can speak about what a call wrote on the way.
-/

namespace Gunrock

/-- Why a run of the program ended without returning. -/
inductive Crash where
  /-- `exit(1)`: "Invalid block number". -/
  | invalidBlock (blockNumber : Int)
  /-- `exit(1)`: "You can't start a new transaction: one already exists". -/
  | nestedTransaction
  /-- Undefined behaviour. -/
  | undefined
deriving DecidableEq, Repr

structure UndoRecord where
  blockNumber : Int
  blockData : Block

structure Disk where
  imageFileSize : Int
  /-- The contents of the image file, by block number. -/
  image : Nat → Block
  isInTransaction : Bool
  undoLog : List UndoRecord
  /-- Block numbers passed to `writeBlock`, latest first. -/
  written : List Int

/-- Programs over the disk. -/
abbrev FS := StateT Disk (Except Crash)

namespace Disk

/-- The constructor, on an image file of `size` bytes; it exits when the size, as an `int`,
is not a multiple of the block size. -/
def new (size : Int) (image : Nat → Block) : Option Disk :=
  if (int32 size).tmod ufsBlockSize ≠ 0 then none
  else some
    { imageFileSize := int32 size
      image := image
      isInTransaction := false
      undoLog := []
      written := [] }

def numberOfBlocks (d : Disk) : Int := d.imageFileSize.tdiv ufsBlockSize

/-- The bound check of `readBlock` and `writeBlock`. -/
def InRange (d : Disk) (blockNumber : Int) : Prop :=
  0 ≤ blockNumber ∧ blockNumber < d.numberOfBlocks

instance (d : Disk) (blockNumber : Int) : Decidable (d.InRange blockNumber) :=
  inferInstanceAs (Decidable (_ ∧ _))

def readBlock (blockNumber : Int) : FS Block := do
  let d ← get
  if d.InRange blockNumber then
    return d.image blockNumber.toNat
  else
    throw (.invalidBlock blockNumber)

def writeBlock (blockNumber : Int) (buffer : Block) : FS PUnit := do
  let d ← get
  if d.InRange blockNumber then
    if d.isInTransaction then
      let blockData ← readBlock blockNumber
      modify fun d => { d with undoLog := ⟨blockNumber, blockData⟩ :: d.undoLog }
    modify fun d => { d with
      image := Function.update d.image blockNumber.toNat buffer
      written := blockNumber :: d.written }
  else
    throw (.invalidBlock blockNumber)

def beginTransaction : FS PUnit := do
  let d ← get
  if d.isInTransaction then
    throw .nestedTransaction
  else
    modify fun d => { d with isInTransaction := true }

def commit : FS PUnit :=
  modify fun d => { d with isInTransaction := false, undoLog := [] }

/-- The loop of `rollback` over the undo log. -/
def undo : List UndoRecord → FS PUnit
  | [] => pure ⟨⟩
  | r :: rs => do
    writeBlock r.blockNumber r.blockData
    undo rs

def rollback : FS PUnit := do
  modify fun d => { d with isInTransaction := false }
  let d ← get
  undo d.undoLog
  modify fun d => { d with undoLog := [] }

/-! ## What each operation does -/

section Rules

open Wp

variable {d : Disk} {b : Int} {Q : PUnit → Disk → Prop}

/-- The disk after block `b` was overwritten. -/
def store (d : Disk) (b : Int) (buffer : Block) : Disk :=
  { d with
    image := Function.update d.image b.toNat buffer
    undoLog := if d.isInTransaction then ⟨b, d.image b.toNat⟩ :: d.undoLog else d.undoLog
    written := b :: d.written }

@[simp] theorem numberOfBlocks_store (d : Disk) (b : Int) (v : Block) :
    (d.store b v).numberOfBlocks = d.numberOfBlocks := rfl

@[simp] theorem isInTransaction_store (d : Disk) (b : Int) (v : Block) :
    (d.store b v).isInTransaction = d.isInTransaction := rfl

theorem image_store_self (d : Disk) (b : Nat) (v : Block) : (d.store b v).image b = v :=
  Function.update_self _ _ _

/-- A block that is stored as it is. -/
theorem image_store_same (d : Disk) (b : Int) : (d.store b (d.image b.toNat)).image = d.image :=
  Function.update_eq_self _ _

theorem wp_readBlock {Q : Block → Disk → Prop} (h : d.InRange b) :
    wp (readBlock b) Q d ↔ Q (d.image b.toNat) d := by
  simp [readBlock, h]

theorem wlp_readBlock {Q : Block → Disk → Prop} :
    wlp (readBlock b) Q d ↔ (d.InRange b → Q (d.image b.toNat) d) := by
  by_cases h : d.InRange b <;> simp [readBlock, h]

theorem wp_writeBlock {v : Block} (h : d.InRange b) :
    wp (writeBlock b v) Q d ↔ Q ⟨⟩ (d.store b v) := by
  cases hin : d.isInTransaction <;> simp [writeBlock, readBlock, store, h, hin]

theorem wlp_writeBlock {v : Block} :
    wlp (writeBlock b v) Q d ↔ (d.InRange b → Q ⟨⟩ (d.store b v)) := by
  by_cases h : d.InRange b
  · cases hin : d.isInTransaction <;> simp [writeBlock, readBlock, store, h, hin]
  · simp [writeBlock, h]

theorem wp_beginTransaction (h : d.isInTransaction = false) :
    wp beginTransaction Q d ↔ Q ⟨⟩ { d with isInTransaction := true } := by
  simp [beginTransaction, h]

theorem wlp_beginTransaction :
    wlp beginTransaction Q d ↔
      (d.isInTransaction = false → Q ⟨⟩ { d with isInTransaction := true }) := by
  cases h : d.isInTransaction <;> simp [beginTransaction, h]

@[simp] theorem wp_commit :
    wp commit Q d ↔ Q ⟨⟩ { d with isInTransaction := false, undoLog := [] } := by
  simp [commit]

@[simp] theorem wlp_commit :
    wlp commit Q d ↔ Q ⟨⟩ { d with isInTransaction := false, undoLog := [] } := by
  simp [commit]

end Rules

/-! ## Transactions

`InTx im d` says that rolling back from `d` would restore the image `im`.  Writing blocks
keeps it, which is all that has to be known about the body of a transaction. -/

/-- The undo log as a list of writes. -/
def records (log : List UndoRecord) : List (Nat × Block) :=
  log.map fun r => (r.blockNumber.toNat, r.blockData)

structure InTx (im : Nat → Block) (d : Disk) : Prop where
  isOpen : d.isInTransaction = true
  undo : UndoLog.replay (records d.undoLog) d.image = im
  inRange : ∀ r ∈ d.undoLog, d.InRange r.blockNumber
  written : ∀ r ∈ d.undoLog, r.blockNumber ∈ d.written

/-- No transaction is open and the undo log is empty. -/
structure Closed (d : Disk) : Prop where
  isClosed : d.isInTransaction = false
  undoLog : d.undoLog = []

variable {im : Nat → Block} {d : Disk}

theorem Closed.inTx (h : d.Closed) : InTx d.image { d with isInTransaction := true } :=
  ⟨rfl, by simp [h.undoLog, records], by simp [h.undoLog], by simp [h.undoLog]⟩

theorem InTx.store (h : InTx im d) {b : Int} (hb : d.InRange b) (v : Block) :
    InTx im (d.store b v) := by
  refine ⟨h.isOpen, ?_, ?_, ?_⟩
  · simp only [Disk.store, h.isOpen, if_true, records, List.map_cons, UndoLog.replay_push]
    exact h.undo
  · intro r hr
    simp only [Disk.store, h.isOpen, if_true, List.mem_cons] at hr
    rcases hr with rfl | hr
    · exact hb
    · exact h.inRange r hr
  · intro r hr
    simp only [Disk.store, h.isOpen, if_true, List.mem_cons] at hr ⊢
    rcases hr with rfl | hr
    · exact .inl rfl
    · exact .inr (h.written r hr)

/-- Writing the records of a log back outside a transaction. -/
theorem wp_undo {Q : PUnit → Disk → Prop} (log : List UndoRecord) (d : Disk)
    (hopen : d.isInTransaction = false) (hrange : ∀ r ∈ log, d.InRange r.blockNumber) :
    wp (undo log) Q d ↔ Q ⟨⟩ { d with
      image := UndoLog.replay (records log) d.image
      written := (log.map UndoRecord.blockNumber).reverse ++ d.written } := by
  induction log generalizing d with
  | nil => simp [undo, records]
  | cons r log ih =>
      rw [undo, Wp.wp_bind, wp_writeBlock (hrange r List.mem_cons_self)]
      rw [ih (d.store _ _) hopen fun r' hr' => hrange r' (List.mem_cons_of_mem _ hr')]
      simp [store, hopen, records]

theorem InTx.wp_rollback (h : InTx im d) {Q : PUnit → Disk → Prop} :
    wp rollback Q d ↔ Q ⟨⟩
      { imageFileSize := d.imageFileSize
        image := im
        isInTransaction := false
        undoLog := []
        written := (d.undoLog.map UndoRecord.blockNumber).reverse ++ d.written } := by
  simp only [rollback, Wp.wp_bind, Wp.wp_modify, Wp.wp_get]
  rw [wp_undo d.undoLog { d with isInTransaction := false } rfl h.inRange]
  simp [h.undo]

/-- After a rollback the image is the one the transaction started from, and no block was
written that had not been written before. -/
theorem InTx.wp_rollback_of (h : InTx im d) {Q : PUnit → Disk → Prop}
    (hQ : ∀ d' : Disk, d'.Closed → d'.image = im → d'.imageFileSize = d.imageFileSize →
      (∀ b ∈ d'.written, b ∈ d.written) → Q ⟨⟩ d') : wp rollback Q d := by
  rw [h.wp_rollback]
  refine hQ _ ⟨rfl, rfl⟩ rfl rfl fun b hb => ?_
  rcases List.mem_append.mp hb with hb | hb
  · obtain ⟨r, hr, rfl⟩ := List.mem_map.mp (List.mem_reverse.mp hb)
    exact h.written r hr
  · exact hb

end Disk

/-! ## Runs that can be evaluated -/

/-- What a call returns, if it does. -/
def result {α : Type} (call : FS α) (d : Disk) : Option α :=
  match call.run d with
  | .ok (a, _) => some a
  | .error _ => none

theorem run_of_result {α : Type} {call : FS α} {d : Disk} {a : α} (h : result call d = some a) :
    ∃ d', call.run d = .ok (a, d') := by
  rw [result] at h
  split at h
  · rename_i b d' hrun
    cases h
    exact ⟨d', hrun⟩
  · cases h

/-- What ends the server, if the call does not return. -/
def crash {α : Type} (call : FS α) (d : Disk) : Option Crash :=
  match call.run d with
  | .ok _ => none
  | .error e => some e

theorem run_of_crash {α : Type} {call : FS α} {d : Disk} {e : Crash}
    (h : crash call d = some e) : call.run d = .error e := by
  rw [crash] at h
  split at h
  · cases h
  · rename_i hrun
    cases h
    exact hrun

/-- Whether a call returns, with a result and a disk that pass a test. -/
def returns {α : Type} (call : FS α) (P : α → Disk → Bool) (d : Disk) : Bool :=
  match call.run d with
  | .ok (a, d') => P a d'
  | .error _ => false

theorem run_of_returns {α : Type} {call : FS α} {P : α → Disk → Bool} {d : Disk}
    (h : returns call P d = true) : ∃ a d', call.run d = .ok (a, d') ∧ P a d' = true := by
  rw [returns] at h
  split at h
  · rename_i a d' hrun
    exact ⟨a, d', hrun, h⟩
  · cases h

end Gunrock
