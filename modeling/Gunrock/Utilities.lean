import Gunrock.Library.Text
import Gunrock.Safety
import Gunrock.Statuses

/-!
# The write utilities

`ds3mkdir.cpp`, `ds3touch.cpp`, `ds3cp.cpp` and `ds3rm.cpp`: programs that open an image, make one
call and exit.  What they are is a script of calls, as in `Statuses`, so that the exit status can
be compared with what the call has returned.

`create` returns the number of an inode when it succeeds, which two of the programs take for an
error (`Reachable.truthful_iff`).
-/

namespace Gunrock

open Disk LocalFileSystem Text Wp

/-- What a program leaves behind when it ends. -/
structure Ended where
  /-- There is none if an exception has ended it. -/
  status : Option Int
  cout : Bytes := []
  cerr : Bytes := []
deriving DecidableEq, Repr

/-- The image file of a disk. -/
def Disk.imageFile (d : Disk) : ImageFile := ⟨d.numberOfBlocks * ufsBlockSize, d.image⟩

namespace Utilities

/-! ## Arguments -/

/-- `argv[i]`, a C string. -/
def arg (argv : List Bytes) (i : Nat) : Bytes := Buffer.cStr (argv.getD i [])

/-- `stoi`, which throws when there is no number or it does not fit. -/
def stoi (s : Bytes) : Option Int :=
  match scanInt s with
  | none => none
  | some (n, _) => if -2 ^ 31 ≤ n ∧ n < 2 ^ 31 then some n else none

/-- A line on `cerr`, and the exit status 1. -/
def failed (message : Bytes) : Ended := { status := some 1, cerr := message ++ [10] }

/-- What the programs have in common: they take three arguments, and the `i`-th is a number. -/
def withNumber (usage : Bytes) (argv : List Bytes) (i : Nat) (main : Int → Calls Ended) :
    Calls Ended :=
  if argv.length ≠ 4 then
    return failed usage
  else
    match stoi (arg argv i) with
    | none => return { status := none }
    | some n => main n

/-! ## The programs -/

def ds3mkdir (argv : List Bytes) : Calls Ended :=
  withNumber (arg argv 0 ++ bytes ": diskImageFile parentInode directory\nFor example:\n    $ " ++
      arg argv 0 ++ bytes " a.img 0 a") argv 2 fun parentInode => do
    let directory := arg argv 3
    if (← Calls.create parentInode ufsDirectory directory) ≠ 0 then
      return failed (bytes "Error creating directory")
    else
      return { status := some 0 }

def ds3touch (argv : List Bytes) : Calls Ended :=
  withNumber (arg argv 0 ++ bytes ": diskImageFile parentInode fileName\nFor example:\n    $ " ++
      arg argv 0 ++ bytes " a.img 0 a.txt") argv 2 fun parentInode => do
    let fileName := arg argv 3
    if (← Calls.create parentInode ufsRegularFile fileName) ≠ 0 then
      return { status := some 1, cout := bytes "Error creating file\n" }
    else
      return { status := some 0 }

/-- `ds3cp`, where `host` gives the files that can be opened, with what is read from them. -/
def ds3cp (host : Bytes → Option Bytes) (argv : List Bytes) : Calls Ended :=
  withNumber (arg argv 0 ++ bytes ": diskImageFile src_file dst_inode\nFor example:\n    $ " ++
      arg argv 0 ++ bytes " tests/disk_images/a.img dthread.cpp 3") argv 3 fun dstInode =>
    let srcFile := arg argv 2
    match host srcFile with
    | none => return failed (bytes "Could not write to dst_file")
    | some fileContent => do
      let size := int32 fileContent.length
      if (← Calls.write dstInode (some fun i => fileContent.getD i 0) size) < 0 then
        -- `write` tells of a size that it does not take itself
        let told := if size ≤ 0 then bytes "Invalid byteBuf2 or size.\n" else []
        return failed (told ++ bytes "Could not write to dst_file")
      else
        return { status := some 0 }

def ds3rm (argv : List Bytes) : Calls Ended :=
  withNumber (arg argv 0 ++ bytes ": diskImageFile parentInode entryName") argv 2
      fun parentInode => do
    let entryName := arg argv 3
    if (← Calls.unlink parentInode entryName) ≠ 0 then
      return failed (bytes "Error removing entry")
    else
      return { status := some 0 }

/-! ## Truthful programs -/

inductive Utility
  | ds3mkdir
  | ds3touch
  | ds3cp
  | ds3rm

def Utility.main (host : Bytes → Option Bytes) (argv : List Bytes) : Utility → Calls Ended
  | ds3mkdir => Utilities.ds3mkdir argv
  | ds3touch => Utilities.ds3touch argv
  | ds3cp => Utilities.ds3cp host argv
  | ds3rm => Utilities.ds3rm argv

/-- The status is 0 if the call that was made has succeeded and only then, and the image is still
`im` if it is 1. -/
def Honest (im : Nat → Block) (answer : Ended × List (Call × Int)) (d : Disk) : Prop :=
  (answer.1.status = some 0 ↔ ∃ call ∈ answer.2, 0 ≤ call.2) ∧
    (answer.1.status = some 1 → d.image = im)

/-- On the image of `d` the program ends, and its exit status tells the truth. -/
def Truthful (d : Disk) (main : Calls Ended) : Prop :=
  ∃ d₀, Disk.new d.imageFile.size d.imageFile.block = some d₀ ∧
    wp (main.trace Call.run) (Honest d.image) d₀

end Utilities

namespace Inventory

variable (σ : Inventory)

/-- Node `j` is of the type. -/
def HasType (j : Nat) (type : Int) : Prop :=
  if type = ufsDirectory then ∃ q es, σ.node j = some (.dir q es)
  else ∃ c, σ.node j = some (.file c)

/-- What `create` is asked for is there, or can be made. -/
def Makes (p type : Int) (x : Bytes) : Prop :=
  ¬ BadName x ∧ ((∃ j : Nat, findName σ.node p x = j ∧ σ.HasType j type) ∨
    ∃ i : Nat, p = i ∧ findName σ.node i x = -eNotFound ∧ σ.CanMake i type x)

end Inventory

section

variable {g : Geometry} {d : Disk} {p type size : Int} {x : Bytes} {Q : Int → Disk → Prop}

theorem wp_create_of_badName (h : BadName x) (hQ : Q (-eInvalidName) d) :
    wp (create p type x) Q d := by
  rw [create]
  by_cases hlen : x = [] ∨ dirEntNameSize ≤ x.length
  · rwa [if_pos hlen, wp_pure]
  · rwa [if_neg hlen, if_pos (h.resolve_left hlen), wp_pure]

theorem Serves.hasType_iff (h : Serves g d) (ht : type = ufsDirectory ∨ type = ufsRegularFile)
    {j : Nat} (hb : (g.volume d.image).inodeBit j = true) :
    (inventory g d).HasType j type ↔ ((g.volume d.image).inode j).type = type := by
  rcases ht with rfl | rfl
  · rw [Inventory.HasType, if_pos rfl]
    exact ⟨fun ⟨_, _, hnode⟩ => Volume.dir_of_node hnode,
      fun hdir => ⟨_, _, Volume.node_of_dir hb hdir⟩⟩
  · rw [Inventory.HasType, if_neg (by decide)]
    refine ⟨fun ⟨_, hnode⟩ => (h.sound.good hb).type.resolve_left (Volume.file_of_node hnode).1,
      fun hfile => ⟨_, Volume.node_of_file hb ?_⟩⟩
    rw [hfile]
    decide

/-- An entry with a proper name is not the root. -/
theorem Serves.one_le_of_findName (h : Serves g d) (hx : (0 : UInt8) ∉ x) (hgood : ¬ BadName x)
    {i q j : Nat} {es : List (Bytes × Nat)} (hi : nodes g d i = some (.dir q es))
    (hj : findName (nodes g d) i x = j) : 1 ≤ j := by
  have hdots : x ≠ dot ∧ x ≠ dotdot :=
    ⟨fun he => hgood (.inr (.inl he)), fun he => hgood (.inr (.inr he))⟩
  rw [findName_dir x hi, Buffer.cStr_of_notMem hx, if_neg hdots.1, if_neg hdots.2] at hj
  cases hchild : (nodes g d).child i x with
  | none =>
      simp only [hchild, eNotFound] at hj
      omega
  | some k =>
      simp only [hchild] at hj
      obtain rfl : k = j := by omega
      refine Nat.one_le_iff_ne_zero.mpr ?_
      rintro rfl
      exact h.sound.tree.not_root (Namespace.entry_of_child hchild)

theorem Inventory.Makes.dir {σ : Inventory} (h : σ.Makes p type x) :
    ∃ (i q : Nat) (es : List (Bytes × Nat)), p = i ∧ σ.node i = some (.dir q es) := by
  by_contra hdir
  have hinvalid := findName_invalid (f := σ.node) (p := p) x
    fun i hi q es hnode => hdir ⟨i, q, es, hi, hnode⟩
  simp only [eInvalidInode] at hinvalid
  rcases h.2 with ⟨j, hj, -⟩ | ⟨i, rfl, hnf, -⟩
  · omega
  · simp only [eNotFound] at hnf
    omega

theorem Inventory.makes_of_found {σ : Inventory} {i j : Nat} (hgood : ¬ BadName x)
    (hj : findName σ.node i x = j) : σ.Makes i type x ↔ σ.HasType j type := by
  constructor
  · rintro ⟨-, ⟨k, hk, htype⟩ | ⟨k, hk, hnf, -⟩⟩
    · obtain rfl : j = k := Int.ofNat_inj.mp (hj.symm.trans hk)
      exact htype
    · rw [← hk] at hnf
      cases hnf.symm.trans hj
  · exact fun htype => ⟨hgood, .inl ⟨j, hj, htype⟩⟩

theorem Inventory.makes_of_notFound {σ : Inventory} {i : Nat} (hgood : ¬ BadName x)
    (hnf : findName σ.node i x = -eNotFound) : σ.Makes i type x ↔ σ.CanMake i type x := by
  constructor
  · rintro ⟨-, ⟨j, hj, -⟩ | ⟨k, hk, -, hmake⟩⟩
    · cases hnf.symm.trans hj
    · obtain rfl : i = k := Int.ofNat_inj.mp hk
      exact hmake
  · exact fun hmake => ⟨hgood, .inr ⟨i, rfl, hnf, hmake⟩⟩

/-- The root is never the inode that a new entry gets. -/
theorem Serves.one_le_newInum (h : Serves g d) {i : Nat}
    (hmake : (inventory g d).CanMake i type x) : 1 ≤ (inventory g d).newInum := by
  refine Nat.one_le_iff_ne_zero.mpr fun h0 => ?_
  obtain ⟨es, hroot⟩ := h.sound.tree.root
  have hnone := (inventory g d).node_newInum hmake
  rw [h0] at hnone
  cases hnone.symm.trans hroot

/-- `create`, with an entry of the name there. -/
theorem Serves.wp_create_of_found (h : Serves g d)
    (ht : type = ufsDirectory ∨ type = ufsRegularFile) (hgood : ¬ BadName x) {i q j : Nat}
    {es : List (Bytes × Nat)} (hi : nodes g d i = some (.dir q es))
    (hj : findName (nodes g d) i x = j) (hsame : (inventory g d).HasType j type → Q j d)
    (hother : ¬ (inventory g d).HasType j type → Q (-eInvalidType) d) :
    wp (create i type x) Q d := by
  refine wp_create_cases h.idle h.sound (fitsInt_type ht) (fun hbad => absurd hbad hgood)
    (fun hno => absurd hi (hno i rfl q es)) (fun k hk => ?_)
    (fun k hk _ hn _ _ _ _ => absurd hn (not_newName hi hj hk))
    fun k hk hc _ _ => absurd hc.toNewName (not_newName hi hj hk)
  obtain rfl : j = k := Int.ofNat_inj.mp (hj.symm.trans hk)
  have hiff := h.hasType_iff ht (h.sound.bit_of_findName hj)
  split
  · rename_i htype
    exact hsame (hiff.mpr htype)
  · rename_i htype
    exact hother (hiff.not.mpr htype)

theorem Serves.wp_create_of_not_dir (h : Serves g d)
    (ht : type = ufsDirectory ∨ type = ufsRegularFile)
    (hno : ∀ (i q : Nat) (es : List (Bytes × Nat)), p = i → nodes g d i ≠ some (.dir q es))
    (hQ : ∀ r < 0, ∀ d', d'.image = d.image → Q r d') : wp (create p type x) Q d := by
  have hinvalid := findName_invalid (f := nodes g d) (p := p) x fun i hi q es => hno i q es hi
  refine wp_create_cases h.idle h.sound (fitsInt_type ht) (fun _ => hQ _ (by decide) d rfl)
    (fun _ => hQ _ (by decide) d rfl) (fun j hj => ?_)
    (fun _ _ _ _ _ d' _ him => hQ _ (by decide) d' him) fun i hi hc _ _ => ?_
  · cases hinvalid.symm.trans hj
  · exact absurd (Volume.node_of_dir hc.bit hc.dir) (hno i _ _ hi)

/-- `create` succeeds when what it is asked for is there or can be made, and never returns 0. -/
theorem Serves.wp_create_makes (h : Serves g d)
    (ht : type = ufsDirectory ∨ type = ufsRegularFile) (hx : (0 : UInt8) ∉ x)
    (hmakes : (inventory g d).Makes p type x → ∀ r, 1 ≤ r → ∀ d', Q r d')
    (hfails : ¬ (inventory g d).Makes p type x → ∀ r < 0, ∀ d', d'.image = d.image → Q r d') :
    wp (create p type x) Q d := by
  by_cases hbad : BadName x
  · exact wp_create_of_badName hbad (hfails (fun hm => hm.1 hbad) _ (by decide) d rfl)
  by_cases hdir : ∃ (i q : Nat) (es : List (Bytes × Nat)), p = i ∧
      nodes g d i = some (.dir q es)
  · obtain ⟨i, q, es, rfl, hi⟩ := hdir
    rcases findName_dir_cases x hi with hnf | ⟨j, hj⟩
    · have hiff : (inventory g d).Makes i type x ↔ _ := Inventory.makes_of_notFound hbad hnf
      refine h.wp_make ht hnf (fun hno r hr d' _ => hfails (hiff.not.mpr hno) r hr d')
        fun hmake d' _ _ => hmakes (hiff.mpr hmake) _ ?_ d'
      have hpos := h.one_le_newInum hmake
      omega
    · have hiff : (inventory g d).Makes i type x ↔ _ := Inventory.makes_of_found hbad hj
      refine h.wp_create_of_found ht hbad hi hj (fun htype => hmakes (hiff.mpr htype) _ ?_ d)
        fun htype => hfails (hiff.not.mpr htype) _ (by decide) d rfl
      have hpos := h.one_le_of_findName hx hbad hi hj
      omega
  · refine h.wp_create_of_not_dir ht (fun i q es hi hnode => hdir ⟨i, q, es, hi, hnode⟩) ?_
    exact hfails fun hm => hdir hm.dir

theorem Serves.wp_write_not_file (h : Serves g d)
    (hno : ∀ i : Nat, p = i → ¬ Image.IsFile d.image i) (buf : Nat → UInt8) :
    wp (write p (some buf) size) (fun r d' => r < 0 ∧ d' = d) d := by
  rcases Int.lt_or_le 0 size with hpos | hneg
  · by_cases hlarge : directPtrs < blockCount size
    · exact wp_write_of_large hpos hlarge _ _ ⟨by decide, rfl⟩
    · dsimp only [write]
      rw [if_neg (by omega), if_neg hlarge, wp_bind, wp_stat h.idle.toHolds]
      rcases h.sound.stat_cases p with ⟨i, rfl, hb, hstat⟩ | ⟨-, hstat⟩
      · have htype : ((g.volume d.image).inode i).type ≠ ufsRegularFile :=
          fun ht => hno i rfl (h.isFile.mpr ⟨hb, ht⟩)
        rw [hstat]
        dsimp only
        rw [if_pos htype, wp_pure]
        exact ⟨by decide, rfl⟩
      · rw [hstat, wp_pure]
        exact ⟨by decide, rfl⟩
  · exact wp_write_of_nonpos hneg _ _ ⟨by decide, rfl⟩

/-! ## Opening the image again -/

theorem Serves.exists_new_iff (h : Serves g d) {P : Disk → Prop} :
    (∃ d₀, Disk.new d.imageFile.size d.imageFile.block = some d₀ ∧ P d₀) ↔
      P (g.bootDisk d.image) := by
  have hnew : Disk.new d.imageFile.size d.imageFile.block = some (g.bootDisk d.image) := by
    rw [Disk.imageFile, h.idle.blocks]
    exact g.new_eq_some d.image
  simp only [hnew, Option.some.injEq, exists_eq_left']

/-- A run on a file that was opened, and what else is known of it. -/
theorem exists_of_returns {α : Type} {f : ImageFile} {m : FS α} {P : α → Disk → Bool}
    {Q : α → Disk → Prop} (h : (Disk.new f.size f.block).any (returns m P) = true)
    (hw : ∃ d₀, Disk.new f.size f.block = some d₀ ∧ wp m Q d₀) :
    ∃ a d', P a d' = true ∧ Q a d' := by
  obtain ⟨d₀, hd₀, hw⟩ := hw
  rw [hd₀, Option.any_some] at h
  obtain ⟨a, d', hrun, hP⟩ := run_of_returns h
  exact ⟨a, d', hP, wlp_of_wp hw a d' hrun⟩

theorem Serves.bootDisk (h : Serves g d) : Serves g (g.bootDisk d.image) :=
  h.of_image ⟨⟨g.numberOfBlocks_bootDisk _, h.idle.super, rfl,
    fun _ hb => absurd hb List.not_mem_nil⟩, rfl, rfl⟩

end

/-! ## Which programs are truthful -/

namespace Utilities

/-- When the exit status tells the truth: if there is nothing to create, if no file is to be written
far beyond its end, and always. -/
def TellsTruth (d : Disk) (host : Bytes → Option Bytes) (argv : List Bytes) : Utility → Prop
  | .ds3mkdir => ∀ p, argv.length = 4 → stoi (arg argv 2) = some p →
      ¬ (Image.inventory d.image).Makes p ufsDirectory (arg argv 3)
  | .ds3touch => ∀ p, argv.length = 4 → stoi (arg argv 2) = some p →
      ¬ (Image.inventory d.image).Makes p ufsRegularFile (arg argv 3)
  | .ds3cp => ∀ n, argv.length = 4 → stoi (arg argv 3) = some n →
      ∀ content, host (arg argv 2) = some content →
        (∃ i : Nat, n = i ∧ Image.IsFile d.image i) → int32 content.length ≤ 2 ^ 31 - 4096
  | .ds3rm => True

section

variable {g : Geometry} {d : Disk} {im : Nat → Block} {ended : Ended} {argv : List Bytes} {i : Nat}
  {main : Int → Calls Ended} {n type r : Int}

/-- A program that fails before it makes a call. -/
theorem honest_nil (hs : ended.status ≠ some 0) (hd : d.image = im) :
    Honest im (ended, []) d :=
  ⟨by simpa using hs, fun _ => hd⟩

/-- A program that fails if its call has failed, and otherwise succeeds. -/
theorem wp_afterCall (call : Call) {b : Prop} [Decidable b] (hs : ended.status = some 1)
    (hb : b ↔ r < 0) (hd : r < 0 → d.image = im) :
    wp (Script.trace Call.run (if b then return ended else return { status := some 0 }))
      (fun a => Honest im (a.1, (call, r) :: a.2)) d := by
  split
  · rename_i hbad
    exact (Script.wp_trace_ret _).mpr ⟨by simp [hs, hb.mp hbad], fun _ => hd (hb.mp hbad)⟩
  · rename_i hgood
    have hr : 0 ≤ r := Int.not_lt.mp (hb.not.mp hgood)
    exact (Script.wp_trace_ret _).mpr ⟨by simp [hr], by simp⟩

theorem wp_withNumber {usage : Bytes} {P : Int → Prop} (hd : d.image = im)
    (hmain : ∀ n, wp ((main n).trace Call.run) (Honest im) d ↔ P n) :
    wp ((withNumber usage argv i main).trace Call.run) (Honest im) d ↔
      ∀ n, argv.length = 4 → stoi (arg argv i) = some n → P n := by
  rw [withNumber]
  by_cases hlen : argv.length = 4
  · rw [if_neg (not_not.mpr hlen)]
    cases stoi (arg argv i) with
    | none =>
        refine iff_of_true ((Script.wp_trace_ret _).mpr (honest_nil ?_ hd)) ?_
        · simp
        · simp
    | some n => simp [hlen, hmain]
  · rw [if_pos hlen]
    refine iff_of_true ((Script.wp_trace_ret _).mpr (honest_nil ?_ hd)) ?_
    · simp [failed]
    · exact fun _ h => absurd h hlen

/-- A program that takes every number but 0 for an error of `create`. -/
theorem wp_creating (h : Serves g d) (ht : type = ufsDirectory ∨ type = ufsRegularFile)
    {x : Bytes} (hx : (0 : UInt8) ∉ x) (hs : ended.status = some 1) :
    wp (Script.trace Call.run do
        if (← Calls.create n type x) ≠ 0 then return ended else return { status := some 0 })
      (Honest d.image) d ↔ ¬ (inventory g d).Makes n type x := by
  simp only [Calls.create, Script.ask_bind]
  refine wp_iff_of_wp (Script.wp_trace_call.mpr ?_)
  refine h.wp_create_makes ht hx (fun hm r hr d' => ?_) fun hm r hr d' hd' => ?_
  · rw [if_pos (by omega), Script.pure_eq, Script.wp_trace_ret]
    refine iff_of_false (fun hh => ?_) (not_not.mpr hm)
    have hex := hh.1.mpr ⟨_, List.mem_singleton_self _, by omega⟩
    rw [hs] at hex
    cases hex
  · refine wp_mono (wp_afterCall (.mutation (.create n type x)) hs ⟨fun _ => hr, Int.ne_of_lt⟩
      fun _ => hd') fun _ _ hh => ?_
    exact iff_of_true hh hm

theorem wp_writing (h : Serves g d) (content message : Bytes) :
    wp (Script.trace Call.run do
        if (← Calls.write n (some fun i => content.getD i 0) (int32 content.length)) < 0 then
          return failed message
        else
          return { status := some 0 })
      (Honest d.image) d ↔ ((∃ i : Nat, n = i ∧ Image.IsFile d.image i) →
        int32 content.length ≤ 2 ^ 31 - 4096) := by
  simp only [Calls.write, Script.ask_bind, Script.wp_trace_call]
  refine ⟨?_, fun hsize => ?_⟩
  · rintro ⟨r, d', hrun, -⟩ ⟨i, rfl, hfile⟩
    by_contra hlarge
    have hlt : int32 content.length < 2 ^ 31 :=
      (Buffer.fitsInt_signed (Buffer.unsigned_lt _)).2
    cases hrun.symm.trans (h.run_write_large hfile (by omega) hlt)
  · generalize int32 content.length = size at hsize ⊢
    by_cases hfile : ∃ i : Nat, n = i ∧ Image.IsFile d.image i
    · have hop : (Mutation.write n (some fun i => content.getD i 0) size).Admissible := hsize hfile
      refine wp_mono (h.wp_mutation hop) ?_
      rintro r d' ⟨-, hm⟩
      refine wp_afterCall _ rfl Iff.rfl fun hr => ?_
      cases hm with
      | fail _ him => exact him
      | write _ _ => omega
    · refine wp_mono (h.wp_write_not_file (fun i hi hf => hfile ⟨i, hi, hf⟩) _) ?_
      rintro r d' ⟨hr, rfl⟩
      exact wp_afterCall _ rfl Iff.rfl fun _ => rfl

theorem wp_unlinking (h : Serves g d) (x : Bytes) :
    wp (Script.trace Call.run do
        if (← Calls.unlink n x) ≠ 0 then return failed (bytes "Error removing entry")
        else return { status := some 0 }) (Honest d.image) d := by
  simp only [Calls.unlink, Script.ask_bind, Script.wp_trace_call]
  refine wp_unlink h.idle h.sound (fun r hr _ d' _ hd' => ?_) fun i k j _ _ d' _ => ?_
  · exact wp_afterCall _ rfl ⟨fun _ => hr, Int.ne_of_lt⟩ fun _ => hd'
  · exact wp_afterCall _ rfl (by decide) fun hr => absurd hr (by decide)

end

end Utilities

section

open Utilities

variable {d : Disk}

/-- The exit status tells the truth just under these conditions, in every state of a run that
starts from a proper layout. -/
theorem Reachable.truthful_iff {numInodes numData : Int} (h : Reachable numInodes numData d)
    (hno : Mkfs.NoOverflow numInodes numData) (host : Bytes → Option Bytes) (argv : List Bytes)
    (utility : Utility) : Truthful d (utility.main host argv) ↔ TellsTruth d host argv utility := by
  obtain ⟨g, -, -, hs, -⟩ := h.serves hno
  have hb := hs.bootDisk
  have harg : (0 : UInt8) ∉ arg argv 3 := Buffer.zero_notMem_cStr _
  refine hs.exists_new_iff.trans ?_
  cases utility with
  | ds3mkdir =>
      rw [TellsTruth, hs.inventory_eq]
      exact wp_withNumber rfl fun n => wp_creating hb (.inl rfl) harg rfl
  | ds3touch =>
      rw [TellsTruth, hs.inventory_eq]
      exact wp_withNumber rfl fun n => wp_creating hb (.inr rfl) harg rfl
  | ds3cp =>
      refine wp_withNumber rfl fun n => ?_
      dsimp only
      cases host (arg argv 2) with
      | none =>
          refine iff_of_true ((Script.wp_trace_ret _).mpr (honest_nil ?_ rfl)) ?_
          · simp [failed]
          · simp
      | some content =>
          refine (wp_writing hb content _).trans ?_
          simp only [Option.some.injEq, forall_eq']
          rfl
  | ds3rm =>
      refine (wp_withNumber rfl fun n => iff_true_intro (wp_unlinking hb _)).trans ?_
      simp [TellsTruth]

theorem exists_truthful : ∃ d, Reachable 32 32 d ∧
    (Truthful d (Utility.ds3mkdir.main (fun _ => none) [[], [], [48], [46]]) ↔
      TellsTruth d (fun _ => none) [[], [], [48], [46]] .ds3mkdir) := by
  obtain ⟨d, hd, -⟩ := exists_reachable_file
  exact ⟨d, hd, hd.truthful_iff (by decide) _ _ _⟩

/-- `ds3mkdir a.img 0 a` makes the directory 1 in an empty one, and exits with 1. -/
theorem exists_not_truthful : ∃ d, Reachable 32 32 d ∧
    ¬ Truthful d (Utility.ds3mkdir.main (fun _ => none) [[], [], [48], [97]]) := by
  obtain ⟨d, hd, hP⟩ := exists_reachable Mkfs.mkfs_ordinary (by decide) [] (by simp)
    (P := fun d => (Disk.new d.imageFile.size d.imageFile.block).any
      (returns ((Utility.ds3mkdir.main (fun _ => none) [[], [], [48], [97]]).trace Call.run)
        fun answer _ => answer.1.status = some 1 && answer.2.any fun call => 0 ≤ call.2))
    (by decide +kernel)
  refine ⟨d, hd, fun htruthful => ?_⟩
  obtain ⟨answer, d', hanswer, hhonest⟩ := exists_of_returns hP htruthful
  simp only [Bool.and_eq_true, decide_eq_true_eq, List.any_eq_true] at hanswer
  have hstatus := hhonest.1.mpr hanswer.2
  rw [hanswer.1] at hstatus
  cases hstatus

end

end Gunrock
