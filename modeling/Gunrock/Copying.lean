import Gunrock.Exchanging
import Gunrock.Printing
import Gunrock.Programs

/-!
# Files in and out

A file that `ds3cp` has copied into the image is served (`Reachable.cp_get`), and what a client has
put there `ds3cat` prints (`Site.put_cat`): the utilities know a file by the number of its inode, the
clients by a path that leads there.  What goes in comes out, but for what an `int` and a C string
make of it.
-/

namespace Gunrock

open Disk LocalFileSystem DistributedFileSystemService Text Utilities Wp

variable {site : Site} {g : Geometry} {d d₀ d₁ d₂ d₃ d' : Disk} {numInodes numData n size r : Int}
  {i : Nat} {host : Bytes → Option Bytes} {argv : List Bytes} {s body content : Bytes}
  {ended : Ended}

/-! ## In -/

/-- What `ds3cp` writes of a file, whose size it takes for an `int`. -/
def Utilities.copied (content : Bytes) : Bytes := content.take (int32 content.length).toNat

theorem int32_natCast_le (n : Nat) : int32 n ≤ n := by
  unfold int32 Buffer.signed Buffer.unsigned
  split <;> omega

theorem map_range_eq_copied {size : Nat} (hsize : int32 content.length = size) :
    (List.range size).map (fun k => content.getD k 0) = copied content := by
  have hle := int32_natCast_le content.length
  rw [copied, hsize, Int.toNat_natCast]
  refine List.ext_getElem (by simp; omega) fun k h₁ h₂ => ?_
  have hk : k < content.length := by
    rw [List.length_take] at h₂
    omega
  rw [List.getElem_map, List.getElem_range, List.getElem_take, List.getD_eq_getElem _ _ hk]

/-- A write that has succeeded. -/
theorem Mutates.of_write {f : Nat → UInt8} (h : Mutates g d (.write n (some f) size) r d')
    (hr : 0 ≤ r) : ∃ i m : Nat, n = i ∧ size = m ∧ CanWrite g (g.volume d.image) i m ∧
      nodes g d' = (nodes g d).setFile i ((List.range m).map f) := by
  cases h with
  | fail hneg _ => omega
  | write hw hnodes => exact ⟨_, _, rfl, rfl, hw, hnodes⟩

/-- A write of any size, where it returns. -/
theorem Serves.wlp_write_mutates (h : Serves g d) (n : Int) (f : Nat → UInt8)
    (hsize : size < 2 ^ 31) : wlp (write n (some f) size)
      (fun r d' => Serves g d' ∧ Mutates g d (.write n (some f) size) r d') d := by
  by_cases hsmall : size ≤ 2 ^ 31 - 4096
  · have hop : (Mutation.write n (some f) size).Admissible := hsmall
    exact wlp_of_wp (h.wp_mutation hop)
  by_cases hfile : ∃ i : Nat, n = i ∧ Image.IsFile d.image i
  · obtain ⟨i, rfl, hfile⟩ := hfile
    intro r d' hrun
    cases (h.run_write_large hfile (by omega) hsize).symm.trans hrun
  · refine wlp_of_wp (wp_mono (h.wp_write_not_file (fun i hi hf => hfile ⟨i, hi, hf⟩) f) ?_)
    rintro r d' ⟨hr, rfl⟩
    exact ⟨h, .fail hr rfl⟩

/-- A copy that succeeds gives a file new contents. -/
theorem Serves.wlp_ds3cp (h : Serves g d) (hcontent : host (arg argv 2) = some content)
    (hdst : stoi (arg argv 3) = some (i : Int)) :
    wlp ((ds3cp host argv).run Call.run) (fun ended d' => ended.status = some 0 →
      Serves g d' ∧ copied content ≠ [] ∧ (∃ c, nodes g d i = some (.file c)) ∧
        nodes g d' = (nodes g d).setFile i (copied content)) d := by
  rw [ds3cp, withNumber]
  by_cases hlen : argv.length = 4
  · rw [if_neg (not_not.mpr hlen), hdst]
    dsimp only
    rw [hcontent]
    dsimp only
    rw [Calls.write, Script.run_ask_bind, wlp_bind]
    have hlt : int32 content.length < 2 ^ 31 := (Buffer.fitsInt_signed (Buffer.unsigned_lt _)).2
    refine wlp_mono (h.wlp_write_mutates i _ hlt) ?_
    rintro r d' ⟨hs', hm⟩
    rw [Script.run_ite]
    split
    · exact (wlp_pure _).mpr fun hok => by cases hok
    · rename_i hr
      refine (wlp_pure _).mpr fun _ => ?_
      obtain ⟨j, m, hj, hm, hw, hnodes⟩ := hm.of_write (Int.not_lt.mp hr)
      obtain rfl : i = j := Int.ofNat_inj.mp hj
      rw [map_range_eq_copied hm] at hnodes
      refine ⟨hs', ?_, ⟨_, Volume.node_of_file hw.bit ?_⟩, hnodes⟩
      · rw [← map_range_eq_copied hm]
        simpa using hw.pos.ne'
      · rw [hw.type]
        decide
  · rw [if_pos hlen]
    exact (wlp_pure _).mpr fun hok => by cases hok

theorem Serves.resolves_iff_walk (h : Serves g d) (hs : PlainPath s) :
    Resolves d 0 (trimmed s) i ↔ (nodes g d).walk 0 (trimmed s) = some i := by
  rw [h.resolves_iff le_rfl, and_iff_left (Int.natCast_nonneg i)]
  exact follow_iff_walk hs.plain

section

variable {get : Connection} {client : HttpClient}

/-- In every state of a run that starts from a proper layout: when `ds3cp` has copied a file to an
inode, and the server is started, then this is what a client gets from a path that leads there. -/
theorem Reachable.cp_get (h : Reachable numInodes numData d)
    (hno : Mkfs.NoOverflow numInodes numData) (hcontent : host (arg argv 2) = some content)
    (hdst : stoi (arg argv 3) = some (i : Int)) (hs : PlainPath s)
    (hpath : Resolves d 0 (trimmed s) i)
    (hnew : Disk.new d.imageFile.size d.imageFile.block = some d₀)
    (hrun : ((ds3cp host argv).run Call.run).run d₀ = .ok (ended, d₁))
    (hstatus : ended.status = some 0) (hget : get.Sends .get s [] client) :
    ∃ d₂, Disk.new d₁.imageFile.size d₁.imageFile.block = some d₂ ∧
      wp (site.handleRequest get) (fun outcome _ => outcome =
        if get.takes then
          .answered ⟨.get, pathPrefix ++ s, []⟩ { status := 200, body := copied content }
        else .unsent ⟨.get, pathPrefix ++ s, []⟩ { status := 200, body := copied content }) d₂ := by
  obtain ⟨g, -, -, hserves, -⟩ := h.serves hno
  obtain ⟨_, hnew', rfl⟩ := (hserves.exists_new_iff (P := (· = g.bootDisk d.image))).mpr rfl
  obtain rfl := Option.some.inj (hnew.symm.trans hnew')
  obtain ⟨hs₁, hne, ⟨c, hfile⟩, hnodes⟩ :=
    hserves.bootDisk.wlp_ds3cp hcontent hdst _ _ hrun hstatus
  have hwalk : (nodes g d₁).walk 0 (trimmed s) = some i := by
    rw [hnodes, Namespace.walk_setFile hfile]
    exact (hserves.resolves_iff_walk hs).mp hpath
  have hcopied : nodes g d₁ i = some (.file (copied content)) := by
    rw [hnodes, Namespace.setFile, Function.update_self]
  exact hs₁.exists_new_iff.mpr (hs₁.bootDisk.wp_handleGet hs hget.carries rfl hwalk hcopied hne)

/-- Two bytes of the host take the place of the one that was in the file `a`. -/
theorem exists_cp_get : ∃ d d₀ d₁ d₂ ended, Reachable 32 32 d ∧
    Disk.new d.imageFile.size d.imageFile.block = some d₀ ∧
    ((ds3cp (fun _ => some [65, 66]) [[], [], [], [49]]).run Call.run).run d₀ = .ok (ended, d₁) ∧
    Disk.new d₁.imageFile.size d₁.imageFile.block = some d₂ ∧
    wp (localSite.handleRequest localGet) (fun outcome _ => outcome =
      .answered ⟨.get, pathPrefix ++ [97], []⟩ { status := 200, body := [65, 66] }) d₂ := by
  obtain ⟨d, hd, hP⟩ := exists_reachable Mkfs.mkfs_ordinary (by decide)
    [.create 0 ufsRegularFile [97], .write 1 (some fun _ => 120) 1] (by decide)
    (P := fun d => decide (result (LocalFileSystem.lookup 0 [97]) d = some 1) &&
      (Disk.new d.imageFile.size d.imageFile.block).any
        (returns ((ds3cp (fun _ => some [65, 66]) [[], [], [], [49]]).run Call.run)
          fun ended _ => ended.status = some 0))
    (by decide +kernel)
  rw [Bool.and_eq_true, decide_eq_true_eq] at hP
  obtain ⟨d', hlookup⟩ := run_of_result hP.1
  have hpath : Resolves d 0 (trimmed [97]) (1 : Nat) := .cons hlookup (by decide) (.nil 1)
  obtain ⟨d₀, hnew, hreturns⟩ := (Option.any_eq_true _ _).mp hP.2
  obtain ⟨ended, d₁, hrun, hstatus⟩ := run_of_returns hreturns
  have hcontent : (fun _ => some [65, 66] : Bytes → Option Bytes) (arg [[], [], [], [49]] 2) =
      some [65, 66] := rfl
  have hdst : stoi (arg [[], [], [], [49]] 3) = some ((1 : Nat) : Int) := by decide
  obtain ⟨d₂, hnew₂, hanswer⟩ := hd.cp_get (by decide) hcontent hdst plainPath_a hpath hnew hrun
    (of_decide_eq_true hstatus) sends_localGet
  exact ⟨d, d₀, d₁, d₂, ended, hd, hnew, hrun, hnew₂, hanswer⟩

end

/-! ## Out -/

section

variable {before between : List Connection} {put : Connection} {out₁ out₂ : List Outcome}
  {client : HttpClient} {response : WireResponse}

/-- What a client puts, and the server acknowledges, is what `ds3cat` prints of the inode that the path
leads to, up to the first byte 0, when the server has been stopped. -/
theorem Site.put_cat (hb : Boots numInodes numData d) (hno : Mkfs.NoOverflow numInodes numData)
    (hs : PlainPath s)
    (hbefore : ∀ conn ∈ before, conn.Plain) (hrun₁ : (site.serve before).run d = .ok (out₁, d₁))
    (hput : put.Sends .put s body client) (hrun₂ : (site.handleRequest put).run d₁ =
      .ok (.answered ⟨.put, pathPrefix ++ s, body⟩ response, d₂)) (hstatus : response.status = 200)
    (hbetween : ∀ conn ∈ between, conn.Plain)
    (hrun₃ : (site.serve between).run d₂ = .ok (out₂, d₃))
    (hkeeps : ∀ outcome ∈ out₂, ∀ entry ∈ outcome.entry, ¬ IsUpdate s entry)
    (hpath : Resolves d₃ 0 (trimmed s) i) (hlen : argv.length = 3)
    (harg : stoi (arg argv 2) = some (i : Int)) :
    ∃ d₀, Disk.new d₃.imageFile.size d₃.imageFile.block = some d₀ ∧
      wp (ds3cat argv) (fun ended _ => ended = {
        status := some 0
        cout := Image.blockLines d₃.image i ++ bytes "File data\n" ++ Buffer.cStr body }) d₀ := by
  obtain ⟨g, outcomes, h₃, hwritten⟩ := site.shows_put hb hno hs hbefore hrun₁ hput hrun₂ hstatus
    hbetween hrun₃ hkeeps
  have hserves := h₃.serves
  rw [h₃.written s hs, visible_eq_some] at hwritten
  obtain ⟨hne, j, hj, hfile⟩ := hwritten
  obtain rfl := Option.some.inj (((hserves.resolves_iff_walk hs).mp hpath).symm.trans hj)
  obtain ⟨ht, hcontent⟩ := Volume.file_of_node hfile
  have hbit := Volume.bit_of_node hfile
  have hisFile := hserves.isFile.mpr ⟨hbit, (hserves.sound.good hbit).type.resolve_left ht⟩
  have himage : Image.content d₃.image i = body := (hserves.content_eq hbit).trans hcontent
  refine hserves.exists_new_iff.mpr (hserves.bootDisk.wp_ds3cat hlen harg hisFile (fun hnil => ?_)
    fun _ => ?_)
  · exact absurd (himage.symm.trans hnil) hne
  · rw [Geometry.image_bootDisk, himage]

theorem Utilities.stoi_decimal {n : Nat} (hn : n < 2 ^ 31) : stoi (decimal n) = some (n : Int) := by
  have hscan := scanInt_decimal_append n (s := []) fun _ h => by cases h
  rw [List.append_nil] at hscan
  rw [stoi, hscan]
  exact if_pos (by omega)

/-- The file `a` is put, then the file `b`, and the first one is printed. -/
theorem exists_put_cat : ∃ (run : LocalRun) (i : Nat) (d₀ : Disk), Resolves run.d₃ 0 (trimmed [97]) i ∧
    Disk.new run.d₃.imageFile.size run.d₃.imageFile.block = some d₀ ∧
    wp (ds3cat [[], [], decimal i]) (fun ended _ => ended = {
      status := some 0
      cout := Image.blockLines run.d₃.image i ++ bytes "File data\n" ++ [120] }) d₀ := by
  obtain ⟨run⟩ := exists_localRun
  obtain ⟨g, outcomes, h, hwritten⟩ := localSite.shows_put run.boots (by decide) plainPath_a
    plain_localGet run.before sends_localPut run.put run.status plain_otherPut run.between run.keeps
  rw [h.written _ plainPath_a, visible_eq_some] at hwritten
  obtain ⟨-, i, hwalk, hfile⟩ := hwritten
  have hpath := (h.serves.resolves_iff_walk plainPath_a).mpr hwalk
  have hlt := h.serves.sound.inode_lt (Volume.bit_of_node hfile)
  have hmax := g.bounds.1
  have harg : arg [[], [], decimal i] 2 = decimal i :=
    Buffer.cStr_of_notMem fun hmem => absurd (isDigit_of_mem_decimal hmem) (by decide)
  obtain ⟨d₀, hnew, hcat⟩ := localSite.put_cat run.boots (by decide) plainPath_a plain_localGet
    run.before sends_localPut run.put run.status plain_otherPut run.between run.keeps hpath rfl
    (harg ▸ stoi_decimal (by omega))
  exact ⟨run, i, d₀, hpath, hnew, hcat⟩

end

end Gunrock
