import Gunrock.Server
import Gunrock.Utilities

/-!
# Programs that share an image

The server and the utilities that write know nothing of each other but the image.  One after the
other, called with whatever arguments and sent whatever requests, they leave an image that the next
one can open, and the file system on it stays sound (`Boots.programs_keep`).
-/

namespace Gunrock

open Disk LocalFileSystem Text Utilities Wp

/-- A program that writes to the image, and what it is given. -/
inductive Program
  | ofUtility (utility : Utility) (host : Bytes → Option Bytes) (argv : List Bytes)
  | gunrock (site : Site) (clients : List Connection)

namespace Program

/-- What the program does with the disk. -/
def main : Program → FS Unit
  | ofUtility utility host argv => do
    let _ ← (utility.main host argv).run Call.run
    return ()
  | gunrock site clients => do
    let _ ← site.serve clients
    return ()

/-- The image that the program leaves, if it ends. -/
def run (f : ImageFile) (program : Program) : Option ImageFile := do
  let d ← Disk.new f.size f.block
  match program.main.run d with
  | .ok (_, d) => some d.imageFile
  | .error _ => none

/-- The program can hold what it is given. -/
def Fits : Program → Prop
  | ofUtility _ host _ => ∀ name, ∀ content ∈ host name, int32 content.length ≤ 2 ^ 31 - 4096
  | gunrock _ clients => ∀ client ∈ clients, client.Fits

end Program

section

variable {g : Geometry} {d : Disk} {program : Program} {argv : List Bytes} {i : Nat}
  {usage : Bytes} {main : Int → Calls Ended} {P : Call → Prop}

/-! ## Utilities -/

/-- The calls of the utilities. -/
def Utilities.Asked (large : Prop) : Call → Prop
  | .lookup _ _ => False
  | .mutation (.create _ type name) =>
      (type = ufsDirectory ∨ type = ufsRegularFile) ∧ (0 : UInt8) ∉ name
  | .mutation (.write _ buf size) => (∃ f, buf = some f) ∧ size < 2 ^ 31 ∧
      (size ≤ 2 ^ 31 - 4096 ∨ large)
  | .mutation (.unlink _ _) => True

theorem Utilities.all_withNumber (hmain : ∀ n, (main n).All P) :
    (withNumber usage argv i main).All P := by
  rw [withNumber]
  refine .ite trivial ?_
  cases stoi (arg argv i) with
  | none => trivial
  | some n => exact hmain n

/-- A utility makes no other calls, and none for a large file if it is not given one. -/
theorem Utilities.Utility.all_main (utility : Utility) (host : Bytes → Option Bytes)
    (argv : List Bytes) {large : Prop} (hlarge : (∀ name, ∀ content ∈ host name,
      int32 content.length ≤ 2 ^ 31 - 4096) ∨ large) :
    (utility.main host argv).All (Asked large) := by
  have harg : (0 : UInt8) ∉ arg argv 3 := Buffer.zero_notMem_cStr _
  cases utility with
  | ds3mkdir =>
      exact all_withNumber fun n => .bind ⟨⟨.inl rfl, harg⟩, fun _ => trivial⟩
        fun _ => .ite trivial trivial
  | ds3touch =>
      exact all_withNumber fun n => .bind ⟨⟨.inr rfl, harg⟩, fun _ => trivial⟩
        fun _ => .ite trivial trivial
  | ds3cp =>
      refine all_withNumber fun n => ?_
      dsimp only
      cases hhost : host (arg argv 2) with
      | none => trivial
      | some content =>
          refine .bind ⟨⟨⟨_, rfl⟩, (Buffer.fitsInt_signed (Buffer.unsigned_lt _)).2, ?_⟩,
            fun _ => trivial⟩ fun _ => .ite trivial trivial
          exact hlarge.imp_left fun h => h _ content hhost
  | ds3rm =>
      exact all_withNumber fun n => .bind ⟨trivial, fun _ => trivial⟩ fun _ => .ite trivial trivial

/-- A call that returns keeps the file system. -/
theorem Serves.wlp_asked (h : Serves g d) {call : Call} (hcall : Asked True call) :
    wlp call.run (fun _ d' => Serves g d') d := by
  have hadmissible : ∀ op : Mutation, op.Admissible → wlp op.run (fun _ d' => Serves g d') d :=
    fun op hop => wlp_of_wp (wp_mono (h.wp_mutation hop) fun _ _ hm => hm.1)
  cases call with
  | lookup => exact hcall.elim
  | mutation op =>
      cases op with
      | create p type name => exact hadmissible (.create p type name) hcall
      | unlink p name => exact hadmissible (.unlink p name) trivial
      | write n buf size =>
          obtain ⟨⟨f, rfl⟩, hlt, -⟩ := hcall
          exact wlp_mono (h.wlp_write n f hlt) fun _ _ hw => hw.1

/-- A call that is not for a large file returns. -/
theorem Serves.wp_asked (h : Serves g d) {call : Call} (hcall : Asked False call) :
    wp call.run (fun _ d' => Serves g d') d := by
  have hadmissible : ∀ op : Mutation, op.Admissible → wp op.run (fun _ d' => Serves g d') d :=
    fun op hop => wp_mono (h.wp_mutation hop) fun _ _ hm => hm.1
  cases call with
  | lookup => exact hcall.elim
  | mutation op =>
      cases op with
      | create p type name => exact hadmissible (.create p type name) hcall
      | unlink p name => exact hadmissible (.unlink p name) trivial
      | write n buf size =>
          exact hadmissible (.write n buf size) (hcall.2.2.resolve_right False.elim)

/-! ## Any programs -/

theorem Serves.keeps (h : Serves g d) : Keeps False g d := ⟨h, False.elim⟩

/-- A program that ends keeps the file system. -/
theorem Serves.wlp_main (h : Serves g d) (program : Program) :
    wlp program.main (fun _ d' => Serves g d') d := by
  cases program with
  | ofUtility utility host argv =>
      rw [Program.main, wlp_bind]
      refine wlp_mono ((utility.all_main host argv (.inr trivial)).wlp_keeps
        (fun call hcall d hd => Serves.wlp_asked hd hcall) h) fun _ d' hd' => ?_
      rw [wlp_pure]
      exact hd'
  | gunrock site clients =>
      rw [Program.main, wlp_bind]
      refine wlp_mono (h.keeps.wlp_serve site) fun _ d' hd' => ?_
      rw [wlp_pure]
      exact hd'.toServes

/-- A program that can hold what it is given ends. -/
theorem Serves.wp_main (h : Serves g d) (hfits : program.Fits) :
    wp program.main (fun _ d' => Serves g d') d := by
  cases program with
  | ofUtility utility host argv =>
      rw [Program.main, wp_bind]
      refine wp_mono ((utility.all_main host argv (.inl hfits)).wp_keeps
        (fun call hcall d hd => Serves.wp_asked hd hcall) h) fun _ d' hd' => ?_
      rw [wp_pure]
      exact hd'
  | gunrock site clients =>
      rw [Program.main, wp_bind]
      refine wp_mono (h.keeps.wp_serve site hfits) fun _ d' hd' => ?_
      rw [wp_pure]
      exact hd'.toServes

/-- An image with a sound file system on it. -/
def ImageFile.Holds (g : Geometry) (f : ImageFile) : Prop := ∃ d, f = d.imageFile ∧ Serves g d

theorem ImageFile.Holds.opens {f : ImageFile} (h : f.Holds g) :
    ∃ d, Disk.new f.size f.block = some d ∧ Serves g d := by
  obtain ⟨d, rfl, hd⟩ := h
  exact hd.exists_new_iff.mpr hd.bootDisk

theorem ImageFile.Holds.run {f f' : ImageFile} (h : f.Holds g) (hrun : program.run f = some f') :
    f'.Holds g := by
  obtain ⟨d, hd, hs⟩ := h.opens
  rw [Program.run, hd, Option.bind_eq_bind, Option.bind_some] at hrun
  split at hrun
  · rename_i d' hmain
    obtain rfl := Option.some.inj hrun
    exact ⟨d', rfl, hs.wlp_main program _ _ hmain⟩
  · cases hrun

theorem ImageFile.Holds.exists_run {f : ImageFile} (h : f.Holds g) (hfits : program.Fits) :
    ∃ f', program.run f = some f' := by
  obtain ⟨d, hd, hs⟩ := h.opens
  obtain ⟨a, d', hmain, -⟩ := hs.wp_main hfits
  refine ⟨d'.imageFile, ?_⟩
  rw [Program.run, hd, Option.bind_eq_bind, Option.bind_some, hmain]

/-- Any programs that are run on a proper image, one after the other, leave one that can be opened
and is sound, and each of them ends if it can hold what it is given. -/
theorem Boots.programs_keep {numInodes numData : Int} (hb : Boots numInodes numData d)
    (hno : Mkfs.NoOverflow numInodes numData) : ∃ g : Geometry, ∀ programs : List Program,
      (∀ f, programs.foldlM (fun f program => program.run f) d.imageFile = some f →
        ∃ d', Disk.new f.size f.block = some d' ∧ Serves g d') ∧
      ((∀ program ∈ programs, program.Fits) →
        ∃ f, programs.foldlM (fun f program => program.run f) d.imageFile = some f) := by
  obtain ⟨g, -, -, hs, -⟩ := hb.serves hno
  refine ⟨g, fun programs => ⟨fun f hf => ?_, fun hfits => ?_⟩⟩
  · have hkeeps := Incremental.foldlM_keeps ImageFile.Holds.run ⟨d, rfl, hs⟩ hf
    exact hkeeps.opens
  · exact Incremental.exists_foldlM ImageFile.Holds.run
      (fun program hmem f h => h.exists_run (hfits program hmem)) ⟨d, rfl, hs⟩

/-- `ds3mkdir` for the directory `b`. -/
def mkdirB : Program := .ofUtility .ds3mkdir (fun _ => none) [[], [], bytes "0", bytes "b"]

/-- A directory is made before the server runs, and then the server answers a `PUT`. -/
theorem exists_programs_keep : ∃ (d d₁ d₂ d' : Disk) (f : ImageFile) (outcomes : List Outcome)
    (g : Geometry), Boots 32 32 d ∧ mkdirB.run d.imageFile = some f ∧
    Disk.new f.size f.block = some d₁ ∧
    (localSite.serve [putClient]).run d₁ = .ok (outcomes, d₂) ∧
    log outcomes = [(⟨.put, bytes "/ds3/a", [120]⟩, 200)] ∧
    [mkdirB, .gunrock localSite [putClient]].foldlM (fun f program => Program.run f program)
      d.imageFile = some d₂.imageFile ∧
    Disk.new d₂.imageFile.size d₂.imageFile.block = some d' ∧ Serves g d' := by
  obtain ⟨d, hd, hP⟩ := exists_boots Mkfs.mkfs_ordinary (by decide)
    (P := fun d => (mkdirB.run d.imageFile).any fun f => (Disk.new f.size f.block).any
      (returns (localSite.serve [putClient]) fun outcomes _ =>
        decide (log outcomes = [(⟨.put, bytes "/ds3/a", [120]⟩, 200)]))) (by decide +kernel)
  obtain ⟨f, hf, hP⟩ := (Option.any_eq_true _ _).mp hP
  obtain ⟨d₁, hd₁, hP⟩ := (Option.any_eq_true _ _).mp hP
  obtain ⟨outcomes, d₂, hserve, hlog⟩ := run_of_returns hP
  have hgunrock : Program.run f (.gunrock localSite [putClient]) = some d₂.imageFile := by
    rw [Program.run, hd₁, Option.bind_eq_bind, Option.bind_some, Program.main,
      run_bind_of_ok hserve]
    rfl
  have hfold : [mkdirB, .gunrock localSite [putClient]].foldlM
      (fun f program => Program.run f program) d.imageFile = some d₂.imageFile := by
    rw [List.foldlM_cons, hf, Option.bind_eq_bind, Option.bind_some, List.foldlM_cons, hgunrock]
    rfl
  obtain ⟨g, hkeep⟩ := hd.programs_keep (by decide)
  obtain ⟨d', hnew, hs⟩ := (hkeep _).1 _ hfold
  exact ⟨d, d₁, d₂, d', f, outcomes, g, hd, hf, hd₁, hserve, of_decide_eq_true hlog, hfold, hnew, hs⟩

end

end Gunrock
