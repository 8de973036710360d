import Gunrock.Effects

/-!
# Where storage comes from

Which data blocks and which inode `write` and `create` take, and when there are not enough:
the free entries are taken from the lowest on (`Image.freeData`, `Image.freeInodes`), and
blocks that a file no longer needs are given back.

The volumes in closed form already have the free list in them (`Volume.newPtr`,
`Volume.newBlock`), and this file reads it off the image.
-/

namespace Gunrock

open Disk LocalFileSystem Wp

namespace Image

variable (im : Nat → Block)

/-- The data blocks that are not in use, in ascending order. -/
def freeData : List Nat := FreeList.free (dataBit im) (super im).numData.toNat

/-- The inodes that are not in use, in ascending order. -/
def freeInodes : List Nat := FreeList.free (inodeBit im) (super im).numInodes.toNat

end Image

variable {g : Geometry} {d d' : Disk} {v : Volume} {i f n p : Nat} {name : Bytes} {type : Int}
  {numInodes numData : Int}

/-! ## `write` -/

/-- On the disk `d'` file `f` has `b` blocks, and on the disk `d` it has `a`.  The new blocks are
the first free ones, and what is no longer needed is free. -/
structure Resizes (d d' : Disk) (f a b : Nat) : Prop where
  kept : ∀ x < min a b, (Image.inode d'.image f).ptr x = (Image.inode d.image f).ptr x
  taken : ∀ x, a ≤ x → x < b → ∃ k,
    (Image.freeData d.image)[x - a]? = some k ∧ Image.Owns d'.image f x k
  given : ∀ x k, b ≤ x → Image.Owns d.image f x k → Image.dataBit d'.image k = false
  dataBits : ∀ k : Nat, (k : Int) < 32768 * (Image.super d.image).dataBitmapLen →
    (Image.dataBit d'.image k = true ↔ k ∈ (Image.freeData d.image).take (b - a) ∨
      Image.dataBit d.image k = true ∧ ¬ ∃ x, b ≤ x ∧ Image.Owns d.image f x k)

/-- A `write` of `n` bytes to file `f` goes through just when there are enough free blocks, and
then takes the first ones. -/
structure WriteAllocates (d : Disk) (f : Nat) (buf : Nat → UInt8) (n : Nat) : Prop where
  succeeds : (∃ r d', (write f (some buf) n).run d = .ok (r, d') ∧ 0 ≤ r) ↔
    blocksFor n - blocksFor (Image.inode d.image f).size ≤ (Image.freeData d.image).length
  resizes : ∀ r d', (write f (some buf) n).run d = .ok (r, d') → 0 ≤ r →
    Resizes d d' f (blocksFor (Image.inode d.image f).size) (blocksFor n)

namespace Serves

/-- A `write` to a file returns: all bytes are written, or there were not enough blocks and the
image is what it was. -/
theorem exists_write (h : Serves g d) (hf : Image.IsFile d.image f) (buf : Nat → UInt8)
    (h0 : 0 < n) (hn : n ≤ maxFileSize) : ∃ r d', (write f (some buf) n).run d = .ok (r, d') ∧
    (CanWrite g (g.volume d.image) f n ∧ r = n ∧
        (∃ scratch, Idle g d' ((g.volume d.image).rewrite g f buf n scratch)) ∨
      ((g.volume d.image).freeData g).length < blocksFor n - (g.volume d.image).blocks f ∧
        r = -eNotEnoughSpace ∧ d'.image = d.image) := by
  obtain ⟨hb, ht⟩ := h.isFile.mp hf
  exact wp_write_file h.idle h.sound hb ht buf h0 hn
    (fun hlt _ _ him => .inr ⟨hlt, rfl, him⟩)
    fun hw scratch _ _ hd' => .inl ⟨hw, rfl, scratch, hd'⟩

theorem resizes (h : Serves g d) {buf : Nat → UInt8} {scratch : Block}
    (hw : CanWrite g (g.volume d.image) f n)
    (hd' : Idle g d' ((g.volume d.image).rewrite g f buf n scratch)) :
    Resizes d d' f ((g.volume d.image).blocks f) (blocksFor n) := by
  have hs := h.sound
  have h' : Serves g d' := .of_idle hd' (hw.sound hs)
  have hvol := hd'.volume
  have hg := hs.good hw.bit
  have hbit : (g.volume d'.image).inodeBit f = true := by
    rw [hvol]
    exact hw.bit
  have hg' := h'.sound.good hbit
  have hblocks : (g.volume d'.image).blocks f = blocksFor n := by
    rw [hvol, CanWrite.blocks_self]
  have hptr : ∀ x < blocksFor n,
      (g.volume d'.image).ptr g f x = (g.volume d.image).newPtr g f x := by
    intro x hx
    rw [hvol, hw.ptr_self hs hx]
  have hbits : ∀ k < 32768 * g.dataBitmapLen, (Image.dataBit d'.image k = true ↔
      k ∈ ((g.volume d.image).freeData g).take (blocksFor n - (g.volume d.image).blocks f) ∨
        (if k ∈ (g.volume d.image).gone g f (blocksFor n) then false
          else (g.volume d.image).dataBit k) = true) := by
    intro k hk
    rw [h'.dataBit_eq hk, hvol]
    exact hw.dataBit_iff hs k
  have hgone : ∀ k, k ∈ (g.volume d.image).gone g f (blocksFor n) ↔
      ∃ x, blocksFor n ≤ x ∧ Image.Owns d.image f x k := by
    intro k
    simp only [Volume.gone, Volume.mem_tail, h.owns_iff, hw.bit, true_and]
  refine ⟨fun x hx => ?_, fun x hax hxb => ?_, fun x k hx ho => ?_, fun k hk => ?_⟩
  · rw [h'.inode_eq hbit, h.inode_eq hw.bit, ← hg'.dataBlock_ptr (by omega),
      ← hg.dataBlock_ptr (by omega), hptr x (by omega), Volume.newPtr_of_lt (by omega)]
  · have hroom := hw.room
    have hlt : x - (g.volume d.image).blocks f < ((g.volume d.image).freeData g).length := by omega
    refine ⟨_, ?_, h'.owns_iff.mpr ⟨hbit, by omega, rfl⟩⟩
    rw [Image.freeData, h.freeData_eq, List.getElem?_eq_getElem hlt, hptr x hxb, Volume.newPtr,
      if_neg (by omega), List.getD_eq_getElem _ _ hlt]
  · obtain ⟨-, hxa, hxk⟩ := h.owns_iff.mp ho
    have hlt := hg.ptr_lt hxa
    have hle := g.numData_le_bitmap
    have hmem := (hgone k).mpr ⟨x, hx, ho⟩
    rw [← Bool.not_eq_true, hbits k (by omega), if_pos hmem]
    rintro (hnew | hfalse)
    · -- a block that is given back was in use
      have hfree := (Volume.mem_freeData.mp (List.mem_of_mem_take hnew)).2
      exact hs.ptr_ne_free hw.bit hxa hfree hxk
    · exact Bool.false_ne_true hfalse
  · rw [h.super_eq] at hk
    have hk : (k : Int) < 32768 * (g.dataBitmapLen : Int) := hk
    rw [hbits k (by omega), Image.freeData, h.freeData_eq, h.dataBit_eq (by omega), ← hgone]
    by_cases hmem : k ∈ (g.volume d.image).gone g f (blocksFor n) <;> simp [hmem]

end Serves

/-- `write` takes the free blocks from the lowest on, in every state of a run that starts from a
proper layout. -/
theorem Reachable.writeAllocates (h : Reachable numInodes numData d)
    (hno : Mkfs.NoOverflow numInodes numData) (hf : Image.IsFile d.image f) (buf : Nat → UInt8)
    (h0 : 1 ≤ n) (hn : n ≤ 30 * 4096) : WriteAllocates d f buf n := by
  obtain ⟨g, -, -, hs, -⟩ := h.serves hno
  obtain ⟨hb, -⟩ := hs.isFile.mp hf
  have hblocks : blocksFor (Image.inode d.image f).size = (g.volume d.image).blocks f := by
    rw [hs.inode_eq hb, Volume.blocks]
  obtain ⟨r, d', hrun, hcases⟩ := hs.exists_write hf buf h0 hn
  constructor
  · rw [hblocks, Image.freeData, hs.freeData_eq]
    constructor
    · rintro ⟨r', d'', hrun', hr'⟩
      rw [hrun] at hrun'
      cases hrun'
      rcases hcases with ⟨hw, -, -⟩ | ⟨-, rfl, -⟩
      · exact hw.room
      · exact absurd hr' (by decide)
    · intro hroom
      rcases hcases with ⟨-, rfl, -⟩ | ⟨hlt, -, -⟩
      · exact ⟨_, d', hrun, Int.natCast_nonneg _⟩
      · omega
  · intro r' d'' hrun' hr'
    rw [hrun] at hrun'
    cases hrun'
    rw [hblocks]
    rcases hcases with ⟨hw, -, scratch, hd'⟩ | ⟨-, rfl, -⟩
    · exact hs.resizes hw hd'
    · exact absurd hr' (by decide)

theorem exists_writeAllocates : ∃ d, Reachable 32 32 d ∧ Image.IsFile d.image 1 ∧
    WriteAllocates d 1 (fun _ => 65) 4097 := by
  obtain ⟨d, hd, -, hfile, -⟩ := exists_reachable_file
  exact ⟨d, hd, hfile, hd.writeAllocates (by decide) hfile _ (by decide) (by decide)⟩

/-- The first free block is the data bitmap, and what is written to it are data bits. -/
theorem exists_not_writeAllocates : ∃ d, Reachable 33554400 32 d ∧ Image.IsFile d.image 1 ∧
    ¬ WriteAllocates d 1 (fun _ => 65) 1 := by
  obtain ⟨d, hd, hP⟩ := exists_reachable Mkfs.mkfs_overlapping (by decide)
    [.create 0 ufsRegularFile [97]] (by decide)
    (P := fun d => decide (Image.IsFile d.image 1) &&
      (Image.dataBit d.image 1 &&
        decide ((1 : Int) < 32768 * (Image.super d.image).dataBitmapLen)) &&
      decide ((Image.inode d.image 1).size = 0) &&
      returns (write (1 : Nat) (some fun _ => 65) (1 : Nat)) (fun r d' => decide (0 ≤ r) &&
        !Image.dataBit d'.image 1) d)
    (by decide +kernel)
  simp only [Bool.and_eq_true, decide_eq_true_eq] at hP
  obtain ⟨⟨⟨hfile, hbit, hlen⟩, hsize⟩, hP⟩ := hP
  obtain ⟨r, d', hrun, hP⟩ := run_of_returns hP
  simp only [Bool.and_eq_true, decide_eq_true_eq, Bool.not_eq_true'] at hP
  obtain ⟨hr, hclear⟩ := hP
  refine ⟨d, hd, hfile, fun hw => ?_⟩
  have hset := ((hw.resizes r d' hrun hr).dataBits 1 hlen).mpr (.inr ⟨hbit, ?_⟩)
  · rw [hclear] at hset
    cases hset
  · -- an empty file owns nothing
    rintro ⟨x, -, -, hx, -⟩
    rw [hsize] at hx
    exact absurd hx (Nat.not_lt_zero x)

/-! ## `create` -/

namespace Image

variable (im : Nat → Block) (p : Nat) (type : Int)

/-- How many data blocks a new entry of this type in directory `p` needs. -/
def need : Nat :=
  (if type = ufsDirectory then 1 else 0) + (if 4096 ∣ (inode im p).size then 1 else 0)

/-- There is no inode, no block or no direct pointer left for it. -/
def Lacks : Prop :=
  freeInodes im = [] ∨ (freeData im).length < need im p type ∨ (inode im p).size = 30 * 4096

end Image

/-- The new inode is the first free one, and the new blocks on the disk `d'` are the first free
ones of the disk `d`: first that of a new directory, then the one that directory `p` needs. -/
structure TakesFirst (d d' : Disk) (p i : Nat) (type : Int) : Prop where
  inode : (Image.freeInodes d.image).head? = some i
  directory : type = ufsDirectory → ∃ k,
    (Image.freeData d.image)[0]? = some k ∧ Image.Owns d'.image i 0 k
  parent : 4096 ∣ (Image.inode d.image p).size → ∃ k,
    (Image.freeData d.image)[if type = ufsDirectory then 1 else 0]? = some k ∧
      Image.Owns d'.image p (blocksFor (Image.inode d.image p).size) k

/-- `create` of a name that directory `p` does not have fails for lack of space just when there
is none. -/
structure CreateAllocates (d : Disk) (p : Nat) (type : Int) (name : Bytes) : Prop where
  full : (∃ d', (create p type name).run d = .ok (-eNotEnoughSpace, d')) ↔
    Image.Lacks d.image p type
  made : ¬ Image.Lacks d.image p type → ∃ (i : Nat) (d' : Disk),
    (create p type name).run d = .ok ((i : Int), d') ∧ TakesFirst d d' p i type

theorem GoodSlots.full_iff (h : GoodSlots g v i) : v.Full i ↔ 4096 ∣ (v.inode i).size := by
  have hsize := h.size_eq
  have hblocks := h.blocks_eq
  unfold Volume.Full
  omega

namespace Serves

theorem need_eq (h : Serves g d) (hdir : Image.IsDirectory d.image p) :
    Image.need d.image p type = (g.volume d.image).need p type := by
  rw [Image.need, Volume.need, h.inode_eq (h.isDirectory.mp hdir).1]
  simp only [(h.goodSlots hdir).full_iff]

theorem lacks_iff (h : Serves g d) (hdir : Image.IsDirectory d.image p) :
    Image.Lacks d.image p type ↔ ¬ CanCreate g (g.volume d.image) p type := by
  obtain ⟨hb, ht⟩ := h.isDirectory.mp hdir
  have hslots := h.goodSlots hdir
  have hfull := hslots.full_iff
  have hblocks := hslots.blocks_eq
  have hsize := hslots.size_eq
  have hle := (h.sound.good hb).blocks_le
  rw [Image.Lacks, Image.freeInodes, h.freeInodes_eq, Image.freeData, h.freeData_eq, h.need_eq hdir,
    h.inode_eq hb]
  constructor
  · rintro (hnil | hlt | hmax) hc
    · exact hc.inode hnil
    · have hdata := hc.data
      omega
    · have hlt := hc.blocks (hfull.mpr (by rw [hmax]; decide))
      omega
  · intro hno
    by_contra hroom
    simp only [not_or] at hroom
    obtain ⟨hinode, hdata, hmax⟩ := hroom
    refine hno ⟨hb, ht, hinode, by omega, fun hf => ?_⟩
    unfold Volume.Full at hf
    omega

/-- `create` of a name that the directory does not have returns: it has made the entry, or there
was no room and the image is what it was. -/
theorem exists_create (h : Serves g d) (hdir : Image.IsDirectory d.image p)
    (ht : type = ufsDirectory ∨ type = ufsRegularFile) (hname : (0 : UInt8) ∉ name)
    (hgood : ¬ BadName name)
    (habsent : ∀ k < Image.count d.image p, (Image.slot d.image p k).cname ≠ name) :
    ∃ r d', (create p type name).run d = .ok (r, d') ∧
      (CanCreate g (g.volume d.image) p type ∧ NewName g (g.volume d.image) p name ∧
          r = (g.volume d.image).newInum g ∧ Idle g d' ((g.volume d.image).created g p type name) ∨
        ¬ CanCreate g (g.volume d.image) p type ∧ r = -eNotEnoughSpace ∧ d'.image = d.image) := by
  obtain ⟨hb, htp⟩ := h.isDirectory.mp hdir
  refine wp_create_cases h.idle h.sound (fitsInt_type ht) (fun hbad => absurd hbad hgood)
    (fun hnot => absurd (Volume.node_of_dir hb htp) (hnot p rfl _ _)) (fun j hj => ?_)
    (fun i hi _ _ hfull _ _ him => ?_) fun i hi hc d' hd' => ?_
  · have hdots : ¬ (name = dot ∨ name = dotdot) := fun hdots => hgood (.inr hdots)
    obtain ⟨k, hk, hcname, -⟩ := (h.findName_slot hdir hname hdots j).mp hj
    exact absurd hcname (habsent k hk)
  · obtain rfl : p = i := by omega
    exact .inr ⟨hfull, rfl, him⟩
  · obtain rfl : p = i := by omega
    exact .inl ⟨hc.toCanCreate, hc.toNewName, rfl, hd'⟩

theorem takesFirst (h : Serves g d) (ht : type = ufsDirectory ∨ type = ufsRegularFile)
    (hc : CanCreate g (g.volume d.image) p type) (hn : NewName g (g.volume d.image) p name)
    (hd' : Idle g d' ((g.volume d.image).created g p type name)) :
    TakesFirst d d' p ((g.volume d.image).newInum g) type := by
  have hs := h.sound
  have h' : Serves g d' := .of_idle hd' (hc.sound hs ht hn)
  have hvol := hd'.volume
  have hfull := ((hs.good hc.bit).slots hc.dir).full_iff
  refine ⟨?_, fun htd => ?_, fun hdvd => ?_⟩
  · obtain ⟨i, is, hcons⟩ := List.exists_cons_of_ne_nil hc.inode
    rw [Image.freeInodes, h.freeInodes_eq, Volume.newInum, hcons, List.head?_cons, List.headD_cons]
  · obtain ⟨k, ks, hcons⟩ := List.exists_cons_of_ne_nil (hc.free htd)
    refine ⟨k, ?_, h'.owns_iff.mpr ?_⟩
    · rw [Image.freeData, h.freeData_eq, hcons, List.getElem?_cons_zero]
    · rw [hvol, hc.blocks_newDir htd, hc.ptr_newDir htd, Volume.newBlock, hcons,
        List.headD_cons]
      exact ⟨CanCreate.bit_new, Nat.one_pos, rfl⟩
  · rw [h.inode_eq hc.bit] at hdvd ⊢
    have hf := hfull.mpr hdvd
    have hsame := hc.same_first hs hc.bit
    have happ := hc.canAppend hs
    have hf' := (hc.full_iff hs).mpr hf
    have hdata := hc.data
    rw [Volume.need, if_pos hf] at hdata
    have hlt : (if type = ufsDirectory then 1 else 0) < ((g.volume d.image).freeData g).length := by
      omega
    refine ⟨_, ?_, h'.owns_iff.mpr ⟨?_, ?_, rfl⟩⟩
    · -- the parent's block is what the new directory left at the head of the free list
      have hptr : (((g.volume d.image).withFirst g p type).append g p name
          ((g.volume d.image).newInum g)).ptr g p
            (((g.volume d.image).withFirst g p type).blocks p) = _ := happ.ptr_new hf'
      rw [hsame.blocks, ← hc.same_parent.ptr, Volume.newBlock, freeData_withFirst hc.free,
        List.headD_eq_head?_getD, List.head?_drop, List.getElem?_eq_getElem hlt,
        Option.getD_some] at hptr
      rw [hvol, Image.freeData, h.freeData_eq, List.getElem?_eq_getElem hlt]
      exact congrArg some hptr.symm
    · rw [hvol, CanCreate.inodeBit_created, Function.update_of_ne (hc.ne_newInum hc.bit)]
      exact hc.bit
    · rw [hvol, hc.same_parent.blocks, happ.blocks_self, if_pos hf', hsame.blocks]
      exact Nat.lt_succ_self _

end Serves

/-- `create` runs out of space just when there is no room, and else takes what is free from the
lowest on, in every state of a run that starts from a proper layout. -/
theorem Reachable.createAllocates (h : Reachable numInodes numData d)
    (hno : Mkfs.NoOverflow numInodes numData) (hdir : Image.IsDirectory d.image p)
    (ht : type = ufsDirectory ∨ type = ufsRegularFile) (hname : (0 : UInt8) ∉ name)
    (hlen : 1 ≤ name.length ∧ name.length ≤ 27) (hdots : ¬ (name = dot ∨ name = dotdot))
    (habsent : ∀ k < Image.count d.image p, (Image.slot d.image p k).cname ≠ name) :
    CreateAllocates d p type name := by
  obtain ⟨g, -, -, hs, -⟩ := h.serves hno
  have hgood : ¬ BadName name := not_badName hlen hdots
  have hlacks : Image.Lacks d.image p type ↔ ¬ CanCreate g (g.volume d.image) p type :=
    hs.lacks_iff hdir
  obtain ⟨r, d', hrun, hcases⟩ := hs.exists_create hdir ht hname hgood habsent
  rcases hcases with ⟨hc, hn, rfl, hd'⟩ | ⟨hfull, rfl, -⟩
  · refine ⟨⟨fun ⟨d'', hrun'⟩ => ?_, fun hl => absurd hc (hlacks.mp hl)⟩,
      fun _ => ⟨_, d', hrun, hs.takesFirst ht hc hn hd'⟩⟩
    rw [hrun] at hrun'
    obtain ⟨hneg, -⟩ := Prod.mk.inj (Except.ok.inj hrun')
    simp only [eNotEnoughSpace] at hneg
    omega
  · exact ⟨⟨fun _ => hlacks.mpr hfull, fun _ => ⟨d', hrun⟩⟩,
      fun hroom => absurd (hlacks.mpr hfull) hroom⟩

theorem exists_createAllocates : ∃ d, Reachable 32 32 d ∧
    CreateAllocates d 0 ufsDirectory [98] := by
  obtain ⟨d, hd, hP⟩ := exists_reachable Mkfs.mkfs_ordinary (by decide)
    [.create 0 ufsRegularFile [97]] (by decide)
    (P := fun d => decide (Image.IsDirectory d.image 0) &&
      decide (∀ k < Image.count d.image 0, (Image.slot d.image 0 k).cname ≠ [98]))
    (by decide +kernel)
  simp only [Bool.and_eq_true, decide_eq_true_eq] at hP
  exact ⟨d, hd, hd.createAllocates (by decide) hP.1 (.inl rfl) (by decide) (by decide)
    (by decide) hP.2⟩

/-- What is written to the file is the block of the root, where it leaves an entry `f` behind the
last one; `create` finds that and takes no inode. -/
theorem exists_not_createAllocates : ∃ d, Reachable 33554400 32 d ∧
    Image.IsDirectory d.image 0 ∧
    (∀ k < Image.count d.image 0, (Image.slot d.image 0 k).cname ≠ [102]) ∧
    ¬ CreateAllocates d 0 ufsRegularFile [102] := by
  obtain ⟨d, hd, hP⟩ := exists_reachable Mkfs.mkfs_overlapping (by decide)
    [.create 0 ufsRegularFile [97],
      .write 1 (some fun k => if k = 64 then 103 else (forged 1 1).get k) 4096] (by decide)
    (P := fun d => decide (Image.IsDirectory d.image 0) &&
      decide (∀ k < Image.count d.image 0, (Image.slot d.image 0 k).cname ≠ [102]) &&
      (!decide (4096 ∣ (Image.inode d.image 0).size) &&
        decide (result (create (0 : Nat) ufsRegularFile [102]) d = some 1)) &&
      (Image.inodeBit d.image 1 && !Image.inodeBit d.image 2 &&
        decide (2 < (Image.super d.image).numInodes.toNat)))
    (by decide +kernel)
  simp only [Bool.and_eq_true, decide_eq_true_eq, Bool.not_eq_true',
    decide_eq_false_iff_not] at hP
  obtain ⟨⟨⟨hdir, habsent⟩, hsize, hresult⟩, ⟨hused, hfree⟩, hnum⟩ := hP
  obtain ⟨d', hrun⟩ := run_of_result hresult
  refine ⟨d, hd, hdir, habsent, fun hc => ?_⟩
  have hroom : ¬ Image.Lacks d.image 0 ufsRegularFile := by
    rintro (hnil | hlt | hmax)
    · have hmem : 2 ∈ Image.freeInodes d.image := FreeList.mem_free.mpr ⟨hnum, hfree⟩
      rw [hnil] at hmem
      cases hmem
    · rw [Image.need, if_neg (by decide), if_neg hsize] at hlt
      omega
    · exact hsize (by rw [hmax]; decide)
  obtain ⟨i, d'', hrun', htakes⟩ := hc.made hroom
  rw [hrun] at hrun'
  obtain ⟨hi, -⟩ := Prod.mk.inj (Except.ok.inj hrun')
  obtain rfl : 1 = i := by omega
  have hmem := List.mem_of_head? htakes.inode
  rw [Image.freeInodes, FreeList.mem_free, hused] at hmem
  exact absurd hmem.2 (by decide)

/-! ## Writes that do not fit -/

/-- How many blocks file `f` could have. -/
def Image.room (im : Nat → Block) (f : Nat) : Nat :=
  blocksFor (inode im f).size + (freeData im).length

/-- A `write` of `b` to file `f` stores as many bytes as there are blocks for, and does not fail
while there is one. -/
structure StoresPrefix (d : Disk) (f : Nat) (b : Bytes) : Prop where
  stores : ∀ m, m = min b.length (Image.room d.image f * 4096) → 0 < m → ∃ d',
    (write f (some fun k => b.getD k 0) b.length).run d = .ok ((m : Int), d') ∧
      (∃ inode, Stats d' f inode ∧ inode.size = m) ∧
      ∀ k : Nat, 1 ≤ k → (LocalFileSystem.read f k).run d' =
        .ok ((((min m k : Nat) : Int), (b.take m).take k), d')
  space : 0 < Image.room d.image f → ∀ d',
    (write f (some fun k => b.getD k 0) b.length).run d ≠ .ok (-eNotEnoughSpace, d')

theorem Serves.room_eq (h : Serves g d) (hf : Image.IsFile d.image f) :
    Image.room d.image f =
      (g.volume d.image).blocks f + ((g.volume d.image).freeData g).length := by
  rw [Image.room, Image.freeData, h.freeData_eq, h.inode_eq (h.isFile.mp hf).1, Volume.blocks]

/-- A `write` that does not fit fails. -/
theorem Serves.not_storesPrefix (h : Serves g d) (hf : Image.IsFile d.image f) {b : Bytes}
    (hn : b.length ≤ 30 * 4096) (hpos : 0 < Image.room d.image f)
    (hlt : Image.room d.image f * 4096 < b.length) : ¬ StoresPrefix d f b := by
  intro hs
  have hroom := h.room_eq hf
  obtain ⟨r, d', hrun, hcases⟩ := h.exists_write hf (fun k => b.getD k 0) (by omega) hn
  rcases hcases with ⟨hw, -⟩ | ⟨-, rfl, -⟩
  · have hle := hw.room
    unfold blocksFor at hle
    omega
  · exact hs.space hpos d' hrun

theorem Serves.storesPrefix (h : Serves g d) (hf : Image.IsFile d.image f) {b : Bytes}
    (h0 : 1 ≤ b.length) (hn : b.length ≤ 30 * 4096)
    (hle : b.length ≤ Image.room d.image f * 4096) : StoresPrefix d f b := by
  have hroom := h.room_eq hf
  obtain ⟨r, d', hrun, hcases⟩ := h.exists_write hf (fun k => b.getD k 0) h0 hn
  obtain ⟨hw, rfl, scratch, hd'⟩ : CanWrite g (g.volume d.image) f b.length ∧ r = b.length ∧
      ∃ scratch, Idle g d'
        ((g.volume d.image).rewrite g f (fun k => b.getD k 0) b.length scratch) := by
    rcases hcases with hok | ⟨hlt, -, -⟩
    · exact hok
    · unfold blocksFor at hlt
      omega
  have hback := h.readsBack hw hd'
  constructor
  · intro m hm _
    rw [Nat.min_eq_left hle] at hm
    subst hm
    rw [List.take_length]
    exact ⟨d', hrun, hback.stat, hback.read⟩
  · intro _ d'' hrun'
    rw [hrun] at hrun'
    obtain ⟨hneg, -⟩ := Prod.mk.inj (Except.ok.inj hrun')
    simp only [eNotEnoughSpace] at hneg
    omega

/-- A `write` stores all bytes or none, in every state of a run that starts from a proper
layout. -/
theorem Reachable.storesPrefix_iff (h : Reachable numInodes numData d)
    (hno : Mkfs.NoOverflow numInodes numData) (hf : Image.IsFile d.image f) {b : Bytes}
    (h0 : 1 ≤ b.length) (hn : b.length ≤ 30 * 4096) :
    StoresPrefix d f b ↔
      b.length ≤ Image.room d.image f * 4096 ∨ Image.room d.image f = 0 := by
  obtain ⟨g, -, -, hs, -⟩ := h.serves hno
  constructor
  · intro hstores
    by_contra hno
    rw [not_or] at hno
    exact hs.not_storesPrefix hf hn (by omega) (by omega) hstores
  · rintro (hle | hzero)
    · exact hs.storesPrefix hf h0 hn hle
    · -- there is nothing to store
      constructor
      · rintro m rfl hpos
        rw [hzero] at hpos
        omega
      · intro hpos
        omega

theorem exists_storesPrefix_iff : ∃ d, Reachable 32 32 d ∧ Image.IsFile d.image 1 ∧
    (StoresPrefix d 1 [65, 66] ↔
      ([65, 66] : Bytes).length ≤ Image.room d.image 1 * 4096 ∨ Image.room d.image 1 = 0) := by
  obtain ⟨d, hd, -, hfile, -⟩ := exists_reachable_file
  exact ⟨d, hd, hfile, hd.storesPrefix_iff (by decide) hfile (by decide) (by decide)⟩

/-- A new file could have all the free blocks. -/
theorem Serves.room_created (h : Serves g d)
    (hc : CanCreate g (g.volume d.image) p ufsRegularFile)
    (hn : NewName g (g.volume d.image) p name)
    (hd' : Idle g d' ((g.volume d.image).created g p ufsRegularFile name)) :
    Image.IsFile d'.image ((g.volume d.image).newInum g) ∧
      Image.room d'.image ((g.volume d.image).newInum g) =
        (Image.freeData d.image).length - (g.volume d.image).need p ufsRegularFile := by
  have hs := h.sound
  have h' : Serves g d' := .of_idle hd' (hc.sound hs (.inr rfl) hn)
  have hinode : (g.volume d'.image).inode ((g.volume d.image).newInum g) =
      { (g.volume d.image).inode ((g.volume d.image).newInum g) with
        type := ufsRegularFile, size := 0 } := by
    rw [hd'.volume, hc.inode_new, newInode, if_neg (by decide)]
  have hbit : (g.volume d'.image).inodeBit ((g.volume d.image).newInum g) = true := by
    rw [hd'.volume]
    exact CanCreate.bit_new
  have hfile : Image.IsFile d'.image ((g.volume d.image).newInum g) :=
    h'.isFile.mpr ⟨hbit, by rw [hinode]⟩
  refine ⟨hfile, ?_⟩
  rw [h'.room_eq hfile, Volume.blocks, hinode, show blocksFor 0 = 0 from rfl, Nat.zero_add,
    hd'.volume, hc.freeData_created hs, List.length_drop, Image.freeData, h.freeData_eq]

/-- With two blocks in another file there are 29 left for a new one, and a write of 30 blocks
fails. -/
theorem exists_not_storesPrefix : ∃ d, Reachable 32 32 d ∧ Image.IsFile d.image 2 ∧
    ¬ StoresPrefix d 2 (List.replicate (30 * 4096) 65) := by
  obtain ⟨d, hd, hP⟩ := exists_reachable Mkfs.mkfs_ordinary (by decide)
    [.create 0 ufsRegularFile [97], .write 1 (some fun _ => 65) 4097] (by decide)
    (P := fun d => decide (Image.IsDirectory d.image 0) &&
      decide (∀ k < Image.count d.image 0, (Image.slot d.image 0 k).cname ≠ [98]) &&
      decide ((Image.freeInodes d.image).head? = some 2) &&
      (decide ((Image.freeData d.image).length = 29) &&
        decide ((Image.inode d.image 0).size = 96))) (by decide +kernel)
  simp only [Bool.and_eq_true, decide_eq_true_eq] at hP
  obtain ⟨⟨⟨hdir, habsent⟩, hinode⟩, hdata, hsize⟩ := hP
  obtain ⟨g, -, -, hs, -⟩ := hd.serves (by decide)
  have hneed : Image.need d.image 0 ufsRegularFile = 0 := by
    rw [Image.need, if_neg (by decide), if_neg (by rw [hsize]; decide)]
  have hroom : ¬ Image.Lacks d.image 0 ufsRegularFile := by
    rintro (hnil | hlt | hmax)
    · rw [hnil] at hinode
      cases hinode
    · omega
    · omega
  obtain ⟨r, d', hrun, ⟨hc, hn, rfl, hd'⟩ | ⟨hno, -, -⟩⟩ :=
    hs.exists_create hdir (.inr rfl) (by decide) (by decide) habsent
  · have htakes := (hs.takesFirst (.inr rfl) hc hn hd').inode
    obtain ⟨hfile, hroom'⟩ := hs.room_created hc hn hd'
    rw [← hs.need_eq hdir, hneed, hdata] at hroom'
    rw [hinode] at htakes
    rw [← Option.some.inj htakes] at hfile hroom'
    have hop : (Mutation.create 0 ufsRegularFile [98]).Admissible := by decide
    refine ⟨d', hd.call hop hrun, hfile, ?_⟩
    have hs' : Serves g d' := .of_idle hd' (hc.sound hs.sound (.inr rfl) hn)
    refine hs'.not_storesPrefix hfile ?_ (by omega) ?_
    · rw [List.length_replicate]
    · rw [List.length_replicate, hroom']
      omega
  · exact absurd ((hs.lacks_iff hdir).mpr hno) hroom

end Gunrock
