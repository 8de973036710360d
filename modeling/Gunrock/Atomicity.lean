import Gunrock.LocalFileSystem
import Gunrock.Mkfs

/-!
# Mutations are all or nothing

`create`, `write` and `unlink` on any disk whatever, sound or not.  The body of a
transaction is built from reads and writes of blocks, so it keeps `Disk.InTx`; each way
out of it is a rollback or a commit.  Nothing is said here about a run that crashes.
-/

namespace Gunrock

namespace LocalFileSystem

open Disk Wp

/-- A piece of a transaction's body. -/
def KeepsTx {α : Type} (m : FS α) : Prop :=
  ∀ ⦃im : Nat → Block⦄ ⦃d : Disk⦄, InTx im d → wlp m (fun _ d' => InTx im d') d

/-- The transaction was undone. -/
def Undone (im : Nat → Block) (d : Disk) : Prop := d.Closed ∧ d.image = im

/-- After a step that may run out of space: the transaction goes on, or it was undone. -/
def GoesOn {α : Type} (im : Nat → Block) : Option α → Disk → Prop
  | some _, d => InTx im d
  | none, d => Undone im d

section Pieces

variable {α β : Type} {m : FS α} {k : α → FS β}

theorem keepsTx_pure (a : α) : KeepsTx (pure a : FS α) := fun im d h => by simpa using h

theorem keepsTx_throw (e : Crash) : KeepsTx (throw e : FS α) := fun im d _ => by simp

theorem KeepsTx.bind (hm : KeepsTx m) (hk : ∀ a, KeepsTx (k a)) : KeepsTx (m >>= k) := by
  intro im d h
  rw [wlp_bind]
  exact wlp_mono (hm h) fun a d' h' => hk a h'

theorem KeepsTx.ite {c : Prop} [Decidable c] {m' : FS α} (hm : KeepsTx m) (hm' : KeepsTx m') :
    KeepsTx (if c then m else m') := by
  split
  · exact hm
  · exact hm'

theorem keepsTx_readBlock (b : Int) : KeepsTx (readBlock b) := by
  intro im d h
  rw [wlp_readBlock]
  exact fun _ => h

theorem keepsTx_writeBlock (b : Int) (v : Block) : KeepsTx (writeBlock b v) := by
  intro im d h
  rw [wlp_writeBlock]
  exact fun hb => h.store hb v

end Pieces

theorem keepsTx_directAt (inode : Inode) (x : Int) : KeepsTx (directAt inode x) :=
  .ite (keepsTx_pure _) (keepsTx_throw _)

theorem keepsTx_setDirect (inode : Inode) (x : Int) (v : Nat) : KeepsTx (setDirect inode x v) :=
  .ite (keepsTx_pure _) (keepsTx_throw _)

theorem keepsTx_readSuperBlock : KeepsTx readSuperBlock :=
  (keepsTx_readBlock 0).bind fun _ => keepsTx_pure _

theorem keepsTx_scanBitmap (addr : Int) (n i : Nat) : KeepsTx (scanBitmap addr n i) := by
  induction n generalizing i with
  | zero => exact keepsTx_pure _
  | succ n ih =>
      refine (keepsTx_readBlock _).bind fun byteBuf => ?_
      split
      · exact (keepsTx_writeBlock _ _).bind fun _ => keepsTx_pure _
      · exact .ite (keepsTx_throw _) (ih _)

theorem keepsTx_clearBit (addr : Int) (index : Nat) : KeepsTx (clearBit addr index) :=
  (keepsTx_readBlock _).bind fun _ => keepsTx_writeBlock _ _

theorem keepsTx_updateInode (super : Super) (n : Nat) (f : Inode → Inode) :
    KeepsTx (updateInode super n f) :=
  (keepsTx_readBlock _).bind fun _ => (keepsTx_writeBlock _ _).bind fun _ => keepsTx_pure _

theorem keepsTx_stat (n : Int) : KeepsTx (stat n) := by
  refine keepsTx_readSuperBlock.bind fun super => .ite (keepsTx_pure _) ?_
  refine (keepsTx_readBlock _).bind fun byteBuf => .ite (keepsTx_pure _) ?_
  exact (keepsTx_readBlock _).bind fun _ => keepsTx_pure _

theorem keepsTx_writeFirst (super : Super) (type : Int) (k n : Nat) (p : Int) :
    KeepsTx (writeFirst super type k n p) :=
  .ite (keepsTx_writeBlock _ _) (keepsTx_pure _)

theorem keepsTx_fillSlot (pinum : Inode) (name : Bytes) (inumNew n i : Nat) :
    KeepsTx (fillSlot pinum name inumNew n i) := by
  induction n generalizing i with
  | zero => exact keepsTx_pure _
  | succ n ih =>
      refine (keepsTx_directAt _ _).bind fun block => (keepsTx_readBlock _).bind fun byteBuf => ?_
      split
      · exact (keepsTx_writeBlock _ _).bind fun _ => keepsTx_pure _
      · exact ih _

theorem keepsTx_shrinkFile (super : Super) (n : Nat) (x : Int) (inode : Inode) :
    KeepsTx (shrinkFile super n x inode) := by
  induction n generalizing x inode with
  | zero => exact keepsTx_pure _
  | succ n ih =>
      refine (keepsTx_directAt _ _).bind fun ptr => (keepsTx_clearBit _ _).bind fun _ => ?_
      exact (keepsTx_setDirect _ _ _).bind fun _ => ih _ _

theorem keepsTx_writeData (inode : Inode) (byteBuf : Block) (n x : Nat) (ptrBuf : Nat → UInt8)
    (uncopyBytes : Int) : KeepsTx (writeData inode byteBuf n x ptrBuf uncopyBytes) := by
  induction n generalizing x ptrBuf uncopyBytes with
  | zero => exact keepsTx_pure _
  | succ n ih =>
      refine .ite (keepsTx_pure _) (.ite ?_ ?_)
      · exact (keepsTx_directAt _ _).bind fun _ => (keepsTx_writeBlock _ _).bind fun _ => ih _ _ _
      · exact (keepsTx_directAt _ _).bind fun _ => keepsTx_writeBlock _ _

theorem keepsTx_readBlocks (pinum : Inode) (n i : Nat) : KeepsTx (readBlocks pinum n i) := by
  induction n generalizing i with
  | zero => exact keepsTx_pure _
  | succ n ih =>
      refine (keepsTx_directAt _ _).bind fun _ => (keepsTx_readBlock _).bind fun _ => ?_
      exact (ih _).bind fun _ => keepsTx_pure _

theorem keepsTx_writeEntries (pinum : Inode) (entries : Nat → DirEnt) (n i : Nat) :
    KeepsTx (writeEntries pinum entries n i) := by
  induction n generalizing i with
  | zero => exact keepsTx_pure _
  | succ n ih =>
      exact (keepsTx_directAt _ _).bind fun _ => (keepsTx_writeBlock _ _).bind fun _ => ih _

theorem keepsTx_notEmptyFrom (inode2 : Inode) (n i : Nat) : KeepsTx (notEmptyFrom inode2 n i) := by
  induction n generalizing i with
  | zero => exact keepsTx_pure _
  | succ n ih =>
      refine (keepsTx_directAt _ _).bind fun _ => (keepsTx_readBlock _).bind fun _ => ?_
      exact .ite (keepsTx_pure _) (ih _)

theorem keepsTx_isFullDirectory (inode2 : Inode) : KeepsTx (isFullDirectory inode2) :=
  .ite (keepsTx_notEmptyFrom _ _ _) (keepsTx_pure _)

theorem keepsTx_dropBlock (super : Super) (pinum : Inode) (m n : Int) :
    KeepsTx (dropBlock super pinum m n) := by
  refine .ite ((keepsTx_directAt _ _).bind fun _ => ?_) (keepsTx_pure _)
  exact (keepsTx_clearBit _ _).bind fun _ => keepsTx_setDirect _ _ _

theorem keepsTx_freeBlocks (super : Super) (inode2 : Inode) (n i : Nat) :
    KeepsTx (freeBlocks super inode2 n i) := by
  induction n generalizing i with
  | zero => exact keepsTx_pure _
  | succ n ih =>
      exact (keepsTx_directAt _ _).bind fun _ => (keepsTx_clearBit _ _).bind fun _ => ih _

/-! ## Ways out -/

variable {im : Nat → Block} {d : Disk}

/-- Rolling back and returning `a`. -/
theorem wlp_rollback_pure {α : Type} {a : α} {Q : α → Disk → Prop} (h : InTx im d)
    (hQ : ∀ d', Undone im d' → Q a d') : wlp (do rollback; return a) Q d := by
  rw [wlp_bind]
  refine wlp_of_wp (h.wp_rollback_of fun d' hc him _ _ => ?_)
  rw [wlp_pure]
  exact hQ d' ⟨hc, him⟩

theorem wlp_allocate (h : InTx im d) (addr len num : Int) :
    wlp (allocate addr len num) (GoesOn im) d := by
  rw [allocate, wlp_bind]
  refine wlp_mono (keepsTx_scanBitmap _ _ _ h) fun r d' h' => ?_
  split
  · exact wlp_rollback_pure h' fun _ => id
  · rw [wlp_ite]
    exact ⟨fun _ => wlp_rollback_pure h' fun _ => id, fun _ => by simpa [GoesOn] using h'⟩

theorem wlp_allocateFirst (h : InTx im d) (super : Super) (type : Int) :
    wlp (allocateFirst super type) (GoesOn im) d := by
  rw [allocateFirst, wlp_ite]
  exact ⟨fun _ => wlp_allocate h _ _ _, fun _ => (wlp_pure _).mpr h⟩

theorem wlp_growFile (h : InTx im d) (super : Super) (n : Nat) (x : Int) (inode : Inode) :
    wlp (growFile super n x inode) (GoesOn im) d := by
  induction n generalizing d x inode with
  | zero => simpa [growFile, GoesOn] using h
  | succ n ih =>
      rw [growFile, wlp_bind]
      refine wlp_mono (wlp_allocate h _ _ _) fun r d' h' => ?_
      cases r with
      | none =>
          rw [wlp_pure]
          exact h'
      | some index =>
          simp only [wlp_bind]
          exact wlp_mono (keepsTx_setDirect _ _ _ h') fun inode d'' h'' => ih h'' _ _

theorem wlp_resize (h : InTx im d) (super : Super) (inode : Inode) (m n : Int) :
    wlp (resize super inode m n) (GoesOn im) d := by
  rw [resize, wlp_ite]
  refine ⟨fun _ => wlp_growFile h _ _ _ _, fun _ => ?_⟩
  rw [wlp_bind]
  exact wlp_mono (keepsTx_shrinkFile _ _ _ _ h) fun inode' d' h' => (wlp_pure _).mpr h'

/-- The answer of `appendEntry` and `growParent`. -/
def GoesOnIf (im : Nat → Block) : Bool → Disk → Prop
  | true, d => InTx im d
  | false, d => Undone im d

theorem wlp_growParent (h : InTx im d) (super : Super) (p : Nat) (cnt : Int) (name : Bytes)
    (inumNew : Nat) : wlp (growParent super p cnt name inumNew) (GoesOnIf im) d := by
  rw [growParent, wlp_ite]
  refine ⟨fun _ => wlp_rollback_pure h fun _ => id, fun _ => ?_⟩
  rw [wlp_bind]
  refine wlp_mono (wlp_allocate h _ _ _) fun r d' h' => ?_
  cases r with
  | none =>
      rw [wlp_pure]
      exact h'
  | some index =>
      rw [wlp_bind]
      refine wlp_mono (keepsTx_writeBlock _ _ h') fun _ d₂ h₂ => ?_
      rw [wlp_ite]
      refine ⟨fun _ => by simp, fun _ => ?_⟩
      rw [wlp_bind]
      exact wlp_mono (keepsTx_updateInode _ _ _ h₂) fun _ d₃ h₃ => by simpa [GoesOnIf] using h₃

theorem wlp_appendEntry (h : InTx im d) (super : Super) (p : Nat) (pinum : Inode) (name : Bytes)
    (inumNew : Nat) : wlp (appendEntry super p pinum name inumNew) (GoesOnIf im) d := by
  rw [appendEntry, wlp_bind]
  refine wlp_mono (keepsTx_fillSlot _ _ _ _ _ h) fun r d' h' => ?_
  cases r with
  | none => exact wlp_growParent h' _ _ _ _ _
  | some index =>
      dsimp only
      rw [wlp_ite]
      refine ⟨fun _ => ?_, fun _ => by simpa [GoesOnIf] using h'⟩
      simp only [wlp_bind]
      exact wlp_mono (keepsTx_updateInode _ _ _ h') fun _ d₃ h₃ => (wlp_pure _).mpr h₃

/-- What a mutation has done to the disk when it returns `r`. -/
def AllOrNothing (im : Nat → Block) (r : Int) (d : Disk) : Prop :=
  d.Closed ∧ (r < 0 → d.image = im)

theorem Undone.allOrNothing {r : Int} (h : Undone im d) : AllOrNothing im r d :=
  ⟨h.1, fun _ => h.2⟩

theorem wlp_commit_pure {r : Int} (hr : 0 ≤ r) :
    wlp (do commit; return r) (AllOrNothing im) d := by
  simp only [wlp_bind, wlp_commit, wlp_pure]
  exact ⟨⟨rfl, rfl⟩, fun h => absurd h (by omega)⟩

/-- `stat` and `lookup` only read. -/
theorem wlp_stat {Q : Except Int Inode → Disk → Prop} {n : Int} (h : ∀ r, Q r d) :
    wlp (stat n) Q d := by
  simp only [stat, readSuperBlock, wlp_bind, wlp_readBlock, wlp_pure, wlp_ite, h, implies_true,
    and_self]

theorem wlp_lookupFrom {Q : Int → Disk → Prop} (h : ∀ r, Q r d) (pinum : Inode) (name : Bytes)
    (n i : Nat) : wlp (lookupFrom pinum name n i) Q d := by
  induction n generalizing i with
  | zero => simpa [lookupFrom] using h _
  | succ n ih =>
      simp only [lookupFrom, directAt, wlp_bind, wlp_ite, wlp_pure, wlp_throw, wlp_readBlock]
      refine ⟨fun _ _ => ?_, fun _ => trivial⟩
      split
      · simpa using h _
      · exact ih _

theorem wlp_lookup {Q : Int → Disk → Prop} {n : Int} {name : Bytes} (h : ∀ r, Q r d) :
    wlp (lookup n name) Q d := by
  rw [lookup, wlp_bind]
  refine wlp_stat fun r => ?_
  cases r with
  | error e => simpa using h _
  | ok pinum =>
      simp only [wlp_ite, wlp_pure]
      exact ⟨fun _ => h _, fun _ => wlp_lookupFrom h _ _ _ _⟩

theorem wlp_beginTransaction_inTx (h : d.Closed) {Q : PUnit → Disk → Prop}
    (hQ : ∀ d', InTx d.image d' → Q ⟨⟩ d') : wlp beginTransaction Q d := by
  rw [wlp_beginTransaction]
  exact fun _ => hQ _ h.inTx

theorem AllOrNothing.of_image {r : Int} (h : d.Closed) : AllOrNothing d.image r d :=
  ⟨h, fun _ => rfl⟩

/-! ## The three mutations -/

theorem wlp_createEntry (h : d.Closed) (super : Super) (p : Int) (pinum : Inode) (type : Int)
    (name : Bytes) : wlp (createEntry super p pinum type name) (AllOrNothing d.image) d := by
  rw [createEntry, wlp_bind]
  refine wlp_beginTransaction_inTx h fun d₁ h₁ => ?_
  rw [wlp_bind]
  refine wlp_mono (wlp_allocateFirst h₁ _ _) fun block d₂ h₂ => ?_
  cases block with
  | none => exact (wlp_pure _).mpr (Undone.allOrNothing h₂)
  | some indexOfData =>
      dsimp only
      rw [wlp_bind]
      refine wlp_mono (wlp_allocate h₂ _ _ _) fun inum d₃ h₃ => ?_
      cases inum with
      | none => exact (wlp_pure _).mpr (Undone.allOrNothing h₃)
      | some inumNew =>
          dsimp only
          rw [wlp_bind]
          refine wlp_mono (keepsTx_writeFirst _ _ _ _ _ h₃) fun _ d₄ h₄ => ?_
          rw [wlp_bind]
          refine wlp_mono (wlp_appendEntry h₄ _ _ _ _ _) fun entered d₅ h₅ => ?_
          cases entered with
          | false => exact (wlp_pure _).mpr (Undone.allOrNothing h₅)
          | true =>
              simp only [if_true]
              rw [wlp_bind]
              refine wlp_mono (keepsTx_updateInode _ _ _ h₅) fun _ d₆ h₆ => ?_
              exact wlp_commit_pure (by omega)

theorem wlp_create (h : d.Closed) (p type : Int) (name : Bytes) :
    wlp (create p type name) (AllOrNothing d.image) d := by
  have hpure : ∀ r : Int, wlp (pure r : FS Int) (AllOrNothing d.image) d :=
    fun r => (wlp_pure r).mpr (.of_image h)
  rw [create, wlp_ite]
  refine ⟨fun _ => hpure _, fun _ => ?_⟩
  rw [wlp_ite]
  refine ⟨fun _ => hpure _, fun _ => ?_⟩
  rw [wlp_bind]
  refine wlp_stat fun r => ?_
  cases r with
  | error e => exact hpure _
  | ok pinum =>
      dsimp only
      rw [wlp_ite]
      refine ⟨fun _ => hpure _, fun _ => ?_⟩
      rw [wlp_bind]
      refine wlp_lookup fun inum2 => ?_
      rw [wlp_ite]
      refine ⟨fun _ => ?_, fun _ => ?_⟩
      · rw [wlp_bind]
        refine wlp_stat fun r => ?_
        cases r with
        | error e => exact hpure _
        | ok inode2 =>
            dsimp only
            rw [wlp_ite]
            exact ⟨fun _ => hpure _, fun _ => hpure _⟩
      · rw [wlp_ite]
        refine ⟨fun _ => hpure _, fun _ => ?_⟩
        simp only [readSuperBlock, wlp_bind, wlp_readBlock, wlp_pure]
        exact fun _ => wlp_createEntry h _ _ _ _ _

theorem wlp_write (h : d.Closed) (i : Int) (buf : Option (Nat → UInt8)) (size : Int) :
    wlp (write i buf size) (AllOrNothing d.image) d := by
  have hpure : ∀ r : Int, wlp (pure r : FS Int) (AllOrNothing d.image) d :=
    fun r => (wlp_pure r).mpr (.of_image h)
  cases buf with
  | none => exact hpure _
  | some ptrBuf =>
      dsimp only [write]
      rw [wlp_ite]
      refine ⟨fun _ => hpure _, fun hsize => ?_⟩
      rw [wlp_ite]
      refine ⟨fun _ => hpure _, fun _ => ?_⟩
      rw [wlp_bind]
      refine wlp_stat fun r => ?_
      cases r with
      | error e => exact hpure _
      | ok inode =>
          dsimp only
          rw [wlp_ite]
          refine ⟨fun _ => hpure _, fun _ => ?_⟩
          simp only [readSuperBlock, wlp_bind, wlp_readBlock, wlp_pure]
          intro _
          refine wlp_beginTransaction_inTx h fun d₁ h₁ => ?_
          refine wlp_mono (wlp_resize h₁ _ _ _ _) fun resized d₂ h₂ => ?_
          cases resized with
          | none => exact (wlp_pure _).mpr (Undone.allOrNothing h₂)
          | some inode' =>
              simp only [wlp_bind]
              refine wlp_mono (keepsTx_updateInode _ _ _ h₂) fun byteBuf d₃ h₃ => ?_
              refine wlp_mono (keepsTx_writeData _ _ _ _ _ _ h₃) fun _ d₄ h₄ => ?_
              rw [← wlp_bind]
              exact wlp_commit_pure (by omega)

theorem wlp_removeAt (h : InTx im d) (super : Super) (p : Int) (pinum : Inode)
    (pEnts : List Block) (k n : Nat) (inode2 : Inode) :
    wlp (removeAt super p pinum pEnts k n inode2) (AllOrNothing im) d := by
  rw [removeAt, wlp_bind]
  refine wlp_mono (keepsTx_writeEntries _ _ _ _ h) fun _ d₁ h₁ => ?_
  rw [wlp_bind]
  refine wlp_mono (keepsTx_dropBlock _ _ _ _ h₁) fun pinum' d₂ h₂ => ?_
  simp only [wlp_bind]
  refine wlp_mono (keepsTx_updateInode _ _ _ h₂) fun _ d₃ h₃ => ?_
  refine wlp_mono (keepsTx_freeBlocks _ _ _ _ h₃) fun _ d₄ h₄ => ?_
  refine wlp_mono (keepsTx_clearBit _ _ h₄) fun _ d₅ h₅ => ?_
  rw [← wlp_bind]
  exact wlp_commit_pure (by omega)

theorem wlp_unlink (h : d.Closed) (p : Int) (name : Bytes) :
    wlp (unlink p name) (AllOrNothing d.image) d := by
  have hpure : ∀ r : Int, wlp (pure r : FS Int) (AllOrNothing d.image) d :=
    fun r => (wlp_pure r).mpr (.of_image h)
  have hundo : ∀ {r : Int} {d' : Disk}, InTx d.image d' →
      wlp (do rollback; return r : FS Int) (AllOrNothing d.image) d' :=
    fun h' => wlp_rollback_pure h' fun _ => Undone.allOrNothing
  rw [unlink, wlp_ite]
  refine ⟨fun _ => hpure _, fun _ => ?_⟩
  rw [wlp_ite]
  refine ⟨fun _ => hpure _, fun _ => ?_⟩
  rw [wlp_bind]
  refine wlp_stat fun r => ?_
  cases r with
  | error e => exact hpure _
  | ok pinum =>
      dsimp only
      rw [wlp_ite]
      refine ⟨fun _ => hpure _, fun _ => ?_⟩
      rw [readSuperBlock]
      simp only [bind_assoc, pure_bind]
      rw [wlp_bind, wlp_readBlock]
      intro _
      rw [wlp_bind]
      refine wlp_beginTransaction_inTx h fun d₁ h₁ => ?_
      rw [wlp_bind]
      refine wlp_mono (keepsTx_readBlocks _ _ _ h₁) fun pEnts d₂ h₂ => ?_
      split
      · exact hundo h₂
      · rw [wlp_ite]
        refine ⟨fun _ => hundo h₂, fun _ => ?_⟩
        rw [wlp_bind]
        refine wlp_mono (keepsTx_stat _ h₂) fun r d₃ h₃ => ?_
        cases r with
        | error e => exact hundo h₃
        | ok inode2 =>
            dsimp only
            rw [wlp_bind]
            refine wlp_mono (keepsTx_isFullDirectory _ h₃) fun full d₄ h₄ => ?_
            rw [wlp_ite]
            exact ⟨fun _ => hundo h₄, fun _ => wlp_removeAt h₄ _ _ _ _ _ _ _⟩

/-- A call that may change the file system. -/
inductive Mutation where
  | create (parentInodeNumber type : Int) (name : Bytes)
  | write (inum2 : Int) (byteBuf2 : Option (Nat → UInt8)) (size : Int)
  | unlink (parentInodeNumber : Int) (name : Bytes)

namespace Mutation

def run : Mutation → FS Int
  | create p type name => LocalFileSystem.create p type name
  | write i buf size => LocalFileSystem.write i buf size
  | unlink p name => LocalFileSystem.unlink p name

end Mutation

/-- On any disk with no transaction open and an empty undo log, a mutation that returns has
closed its transaction, and has left every block as it was if it returned an error. -/
theorem mutation_allOrNothing (d : Disk) (hd : d.Closed) (op : Mutation) :
    wlp op.run (AllOrNothing d.image) d := by
  cases op with
  | create p type name => exact wlp_create hd p type name
  | write i buf size => exact wlp_write hd i buf size
  | unlink p name => exact wlp_unlink hd p name

/-- A disk with an empty root directory and one free data block. -/
def nearlyFull : Disk where
  imageFileSize := 6 * 4096
  image
    | 0 => (Mkfs.layout 32 2).encode
    | 1 | 2 => Mkfs.firstBit
    | 3 => Mkfs.rootInode (Mkfs.layout 32 2) Buffer.zero
    | 4 => Mkfs.rootDirectory Buffer.zero
    | _ => Buffer.zero
  isInTransaction := false
  undoLog := []
  written := []

/-- A `create` succeeds, and a `write` of two blocks fails after the first one is taken: it has
written the data bitmap, and has put it back. -/
theorem exists_mutation_allOrNothing : ∃ d d₁ d₂ : Disk, d.Closed ∧
    (Mutation.create 0 ufsRegularFile [97]).run.run d = .ok (1, d₁) ∧ AllOrNothing d.image 1 d₁ ∧
    (Mutation.write 1 (some fun _ => 65) 8192).run.run d₁ = .ok (-eNotEnoughSpace, d₂) ∧
    (2 : Int) ∉ d₁.written ∧ (2 : Int) ∈ d₂.written ∧
    AllOrNothing d₁.image (-eNotEnoughSpace) d₂ := by
  have h : returns (Mutation.create 0 ufsRegularFile [97]).run (fun r d₁ => decide (r = 1) &&
        decide ((2 : Int) ∉ d₁.written) &&
        returns (Mutation.write 1 (some fun _ => 65) 8192).run (fun r d₂ =>
          decide (r = -eNotEnoughSpace) && decide ((2 : Int) ∈ d₂.written)) d₁)
      nearlyFull = true := by decide +kernel
  obtain ⟨r, d₁, hcreate, h⟩ := run_of_returns h
  rw [Bool.and_eq_true, Bool.and_eq_true, decide_eq_true_eq, decide_eq_true_eq] at h
  obtain ⟨⟨rfl, hbefore⟩, h⟩ := h
  obtain ⟨r, d₂, hwrite, h⟩ := run_of_returns h
  rw [Bool.and_eq_true, decide_eq_true_eq, decide_eq_true_eq] at h
  obtain ⟨rfl, hafter⟩ := h
  have hcreated := mutation_allOrNothing nearlyFull ⟨rfl, rfl⟩ _ _ _ hcreate
  have hwritten := mutation_allOrNothing d₁ hcreated.1 _ _ _ hwrite
  exact ⟨nearlyFull, d₁, d₂, ⟨rfl, rfl⟩, hcreate, hcreated, hwrite, hbefore, hafter, hwritten⟩

end LocalFileSystem

end Gunrock
