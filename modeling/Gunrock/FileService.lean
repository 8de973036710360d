import Gunrock.DistributedFileSystemService
import Gunrock.HTTP
import Gunrock.Library.LexicalPath

/-!
# Static files

`FileService.cpp`, the service for all paths that are not under `/ds3/`, and `find_service`
of `gunrock.cpp`.  A request's path is put behind the base directory as it is, with the
`..` in it.  So a path that climbs leads out of the base directory, unless it comes back
along the same names (`FileService.staysInside_iff`).

The files of the machine are an argument: what can be read under a name, if it can be
opened.  A run keeps the names that were opened, latest first.
-/

namespace Gunrock

/-- A response with its `Content-Type`. -/
structure FileResponse extends HTTPResponse where
  contentType : String := "text/html; charset=ISO-8859-1"
deriving DecidableEq, Repr

/-- `string::rfind`: where the last occurrence of `suffix` starts. -/
def rfind (str suffix : Bytes) : Option Nat :=
  (List.range (str.length + 1 - suffix.length)).reverse.find? fun i =>
    suffix.isPrefixOf (str.drop i)

structure FileService where
  basedir : Bytes
deriving DecidableEq, Repr

namespace FileService

/-- `"/"` -/
def slash : Bytes := [47]

/-- The difference of the lengths is unsigned: where nothing is found, it is `npos` as well
when the string is one byte shorter than the suffix. -/
def endswith (str suffix : Bytes) : Bool :=
  match rfind str suffix with
  | some pos => pos + suffix.length == str.length
  | none => str.length + 1 == suffix.length

/-- The loop of the constructor, with `n` iterations left.  On an empty string it does not
end, since that one `endswith` a slash. -/
def stripSlashes : Nat → Bytes → Option Bytes
  | 0, _ => none
  | n + 1, basedir =>
    if endswith basedir slash then stripSlashes n (basedir.take (basedir.length - 1))
    else some basedir

/-- The constructor; more iterations than `basedir` has bytes are never made. -/
def new (basedir : Bytes) : Option FileService := do
  let basedir ← stripSlashes (basedir.length + 1) basedir
  if basedir.length = 0 then none else some ⟨basedir⟩

variable (files : Bytes → Option Bytes) (service : FileService) (request : HTTPRequest)

/-- A file that cannot be opened reads as an empty one. -/
def readFile (path : Bytes) : StateM (List Bytes) Bytes := do
  modify (Buffer.cStr path :: ·)
  return (files (Buffer.cStr path)).getD []

/-- `".css"` -/
def cssSuffix : Bytes := [46, 99, 115, 115]

/-- `".js"` -/
def jsSuffix : Bytes := [46, 106, 115]

def get : StateM (List Bytes) (Except ClientError FileResponse) := do
  let path := service.basedir ++ request.path
  let fileContents ← readFile files path
  if fileContents.length = 0 then
    return .error .notFound
  else if endswith path cssSuffix then
    return .ok { body := fileContents, contentType := "text/css" }
  else if endswith path jsSuffix then
    return .ok { body := fileContents, contentType := "text/javascript" }
  else
    return .ok { body := fileContents }

def head : StateM (List Bytes) (Except ClientError FileResponse) := do
  match ← get files service request with
  | .error e => return .error e
  | .ok response => return .ok { response with body := [] }

end FileService

/-! ## Routing -/

/-- The services, in the order in which they are searched. -/
inductive Service where
  | distributedFileSystem
  | file
deriving DecidableEq, Repr

namespace Service

def pathPrefix : Service → Bytes
  | distributedFileSystem => DistributedFileSystemService.pathPrefix
  | file => FileService.slash

/-- `find_service` -/
def find (path : Bytes) : Option Service :=
  [distributedFileSystem, file].find? fun service => decide (service.pathPrefix <+: path)

theorem find_eq_file {path : Bytes} : find path = some file ↔
    FileService.slash <+: path ∧ ¬ DistributedFileSystemService.pathPrefix <+: path := by
  simp only [find, List.find?_cons, List.find?_nil, pathPrefix]
  by_cases hds3 : DistributedFileSystemService.pathPrefix <+: path
  · simp [hds3]
  · by_cases hslash : FileService.slash <+: path
    · simp [hds3, hslash]
    · simp [hds3, hslash]

end Service

/-! ## The name that is opened -/

namespace FileService

open LocalFileSystem

/-- What a component of a name means to the system. -/
def step (c : Bytes) : PathStep Bytes :=
  if c = [] ∨ c = dot then .stay else if c = dotdot then .up else .down c

def steps (name : Bytes) : List (PathStep Bytes) := (name.splitOn 47).map step

/-- Where a name leads, if no component is a symbolic link. -/
def resolve (name : Bytes) : Place Bytes :=
  (steps name).foldl Place.walk (.start (name.head? = some 47))

/-- Where a path leads from a directory that is not known. -/
def climb (path : Bytes) : Place Bytes := (steps path).foldl Place.walk (.start false)

theorem steps_append_slash (name rest : Bytes) :
    steps (name ++ 47 :: rest) = steps name ++ steps rest := by
  rw [steps, List.splitOn_append_cons_self, List.map_append, steps, steps]

theorem climb_slash (rest : Bytes) : climb (47 :: rest) = climb rest := by
  have hsteps := steps_append_slash [] rest
  rw [List.nil_append] at hsteps
  rw [climb, hsteps, List.foldl_append]
  rfl

/-- A path behind a base directory leads where it leads from there. -/
theorem resolve_append {basedir : Bytes} (hne : basedir ≠ []) (rest : Bytes) :
    resolve (basedir ++ 47 :: rest) =
      (resolve basedir).shift (climb (47 :: rest)).ups (climb (47 :: rest)).names := by
  obtain ⟨c, cs, rfl⟩ := List.exists_cons_of_ne_nil hne
  rw [resolve, steps_append_slash, List.foldl_append, Place.foldl_walk, climb_slash]
  rfl

/-! ## The constructor -/

theorem endswith_slash {str : Bytes} (h : endswith str slash = true) (hne : str ≠ []) :
    str = str.take (str.length - 1) ++ [47] := by
  rw [endswith] at h
  split at h
  · rename_i pos hpos
    have hpre := List.find?_some hpos
    simp only [slash, List.length_singleton, beq_iff_eq] at h
    rw [List.isPrefixOf_iff_prefix] at hpre
    obtain ⟨tail, htail⟩ := hpre
    have hlen := congrArg List.length htail
    simp only [slash, List.length_append, List.length_singleton, List.length_drop] at hlen
    have hnil : tail = [] := List.length_eq_zero_iff.mp (by omega)
    rw [hnil, List.append_nil] at htail
    have hsplit := List.take_append_drop pos str
    rw [← htail] at hsplit
    rw [show str.length - 1 = pos by omega]
    exact hsplit.symm
  · have hlen : 0 < str.length := List.length_pos_iff.mpr hne
    simp only [slash, List.length_singleton, beq_iff_eq] at h
    omega

theorem stripSlashes_nil (n : Nat) : stripSlashes n [] = none := by
  induction n with
  | zero => rfl
  | succ n ih => exact ih

/-- The constructor keeps the directory that it was given. -/
theorem resolve_of_stripSlashes {n : Nat} {basedir m : Bytes}
    (h : stripSlashes n basedir = some m) :
    basedir ≠ [] ∧ resolve m = resolve basedir ∧ m <+: basedir := by
  induction n generalizing basedir with
  | zero => cases h
  | succ n ih =>
      have hne : basedir ≠ [] := by
        rintro rfl
        rw [stripSlashes_nil] at h
        cases h
      rw [stripSlashes] at h
      split at h
      · rename_i hend
        obtain ⟨hfirst, hm, hpre⟩ := ih h
        refine ⟨hne, ?_, hpre.trans (List.take_prefix _ _)⟩
        conv_rhs => rw [endswith_slash hend hne]
        rw [hm, resolve_append hfirst]
        exact (Place.shift_zero _).symm
      · cases h
        exact ⟨hne, rfl, List.prefix_rfl⟩

theorem new_eq_some {basedir : Bytes} {service : FileService} (h : new basedir = some service) :
    service.basedir ≠ [] ∧ resolve service.basedir = resolve basedir ∧
      service.basedir <+: basedir := by
  cases hm : stripSlashes (basedir.length + 1) basedir with
  | none => simp [new, hm] at h
  | some m =>
      simp only [new, hm, Option.bind_eq_bind, Option.bind_some] at h
      split at h
      · cases h
      · rename_i hlen
        cases h
        exact ⟨fun hnil => hlen (List.length_eq_zero_iff.mpr hnil), (resolve_of_stripSlashes hm).2⟩

/-! ## The loop of the constructor -/

theorem rfind_concat (str : Bytes) : rfind (str ++ slash) slash = some str.length := by
  rw [rfind, List.length_append, show slash.length = 1 from rfl, Nat.add_sub_cancel,
    List.range_succ, List.reverse_concat, List.find?_cons_of_pos]
  rw [List.drop_left]
  rfl

theorem stripSlashes_concat (n : Nat) (str : Bytes) :
    stripSlashes (n + 1) (str ++ [47]) = stripSlashes n str := by
  have hend : endswith (str ++ [47]) slash = true := by
    rw [endswith, show [47] = slash from rfl, rfind_concat]
    simp only [List.length_append, beq_self_eq_true]
  rw [stripSlashes, if_pos hend, List.length_append, List.length_singleton, Nat.add_sub_cancel,
    List.take_left]

theorem endswith_eq_false {str : Bytes} (hne : str ≠ []) (h : str.getLast? ≠ some 47) :
    endswith str slash = false := by
  rw [← Bool.not_eq_true]
  intro hend
  rw [endswith_slash hend hne, List.getLast?_concat] at h
  exact h rfl

/-- The trailing slashes come off one by one. -/
theorem stripSlashes_append {str : Bytes} (hne : str ≠ []) (h : str.getLast? ≠ some 47) (k : Nat) :
    stripSlashes (k + 1) (str ++ List.replicate k 47) = some str := by
  induction k with
  | zero => rw [List.replicate_zero, List.append_nil, stripSlashes, endswith_eq_false hne h,
      if_neg Bool.false_ne_true]
  | succ k ih =>
      rw [List.replicate_succ', ← List.append_assoc, stripSlashes_concat, ih]

/-- Once all bytes are gone, the loop goes on. -/
theorem stripSlashes_replicate (n k : Nat) : stripSlashes n (List.replicate k 47) = none := by
  induction n generalizing k with
  | zero => rfl
  | succ n ih =>
      cases k with
      | zero => exact stripSlashes_nil (n + 1)
      | succ k => rw [List.replicate_succ', stripSlashes_concat, ih]

theorem exists_trailing_slashes (basedir : Bytes) : ∃ str k,
    basedir = str ++ List.replicate k 47 ∧ str.getLast? ≠ some 47 := by
  induction basedir using List.reverseRecOn with
  | nil => exact ⟨[], 0, rfl, by simp⟩
  | append_singleton str c ih =>
      by_cases hc : c = 47
      · obtain ⟨m, k, rfl, hm⟩ := ih
        exact ⟨m, k + 1, by rw [hc, List.replicate_succ', List.append_assoc], hm⟩
      · refine ⟨str ++ [c], 0, (List.append_nil _).symm, ?_⟩
        rw [List.getLast?_concat]
        simpa using hc

/-- The loop of the constructor ends.  What remains of the directory is not empty and has no
slash at its end, or it is empty, which is reported, and there was nothing but slashes. -/
def StripsSlashes (basedir : Bytes) : Prop :=
  ∃ n str, stripSlashes n basedir = some str ∧
    ((str ≠ [] ∧ str.getLast? ≠ some 47 ∧ ∃ k, basedir = str ++ List.replicate k 47) ∨
      (str = [] ∧ ∀ c ∈ basedir, c = 47))

/-- The constructor ends just when there is something besides slashes. -/
theorem stripsSlashes_iff (basedir : Bytes) :
    StripsSlashes basedir ↔ ∃ c ∈ basedir, c ≠ 47 := by
  constructor
  · rintro ⟨n, str, hstr, -⟩
    by_contra hall
    have hslashes : ∀ c ∈ basedir, c = 47 := fun c hc => by_contra fun hne => hall ⟨c, hc, hne⟩
    rw [List.eq_replicate_of_mem hslashes, stripSlashes_replicate] at hstr
    cases hstr
  · rintro ⟨c, hc, hne⟩
    obtain ⟨str, k, rfl, hlast⟩ := exists_trailing_slashes basedir
    have hstr : str ≠ [] := by
      rintro rfl
      exact hne (List.eq_of_mem_replicate hc)
    exact ⟨k + 1, str, stripSlashes_append hstr hlast k, .inl ⟨hstr, hlast, k, rfl⟩⟩

/-- The empty directory `endswith` a slash, and stays what it is without its last byte. -/
theorem not_stripsSlashes : ¬ StripsSlashes [] := by
  rintro ⟨n, str, hstr, -⟩
  rw [stripSlashes_nil] at hstr
  cases hstr

/-! ## Paths that leave the base directory -/

/-- Whatever `get` opens lies at or below the base directory. -/
def StaysInside (files : Bytes → Option Bytes) (service : FileService) (basedir : Bytes)
    (request : HTTPRequest) : Prop :=
  ∀ name ∈ (get files service request []).2, (resolve basedir).Below (resolve name)

/-- The path does not climb above the base directory, or it comes back down along the
directories that it climbed out of; a relative base directory may not be climbed out of
altogether. -/
def ComesBack (basedir path : Bytes) : Prop :=
  ((resolve basedir).rooted = true ∨ (climb path).ups ≤ (resolve basedir).names.length) ∧
    (resolve basedir).names.take (climb path).ups <:+ (climb path).names

instance (basedir path : Bytes) : Decidable (ComesBack basedir path) :=
  inferInstanceAs (Decidable (_ ∧ _))

/-- `get` opens one file. -/
theorem opened_get (files : Bytes → Option Bytes) (service : FileService)
    (request : HTTPRequest) : (get files service request []).2 =
      [Buffer.cStr (service.basedir ++ request.path)] := by
  have hread : ∀ path, readFile files path [] =
      ((files (Buffer.cStr path)).getD [], [Buffer.cStr path]) := fun _ => rfl
  have hrest : ∀ response : Except ClientError FileResponse, ∀ opened : List Bytes,
      ((pure response : StateM (List Bytes) _) opened).2 = opened := fun _ _ => rfl
  simp only [get, bind, StateT.bind, hread]
  split
  · rw [hrest]
  · split
    · rw [hrest]
    · split <;> rw [hrest]

theorem normalUrlChar_ne_zero {c : UInt8} (h : normalUrlChar c = true) : c ≠ 0 := by
  rintro rfl
  cases h

/-- Static files are read from the base directory just when the path comes back to it. -/
theorem staysInside_iff {basedir : Bytes} {service : FileService} {request : HTTPRequest}
    (hnew : new basedir = some service) (h0 : (0 : UInt8) ∉ basedir)
    (hroute : Service.find request.path = some .file)
    (hurl : ∀ c ∈ request.path, normalUrlChar c = true) (files : Bytes → Option Bytes) :
    StaysInside files service basedir request ↔ ComesBack basedir request.path := by
  obtain ⟨hne, hresolve, hpre⟩ := new_eq_some hnew
  obtain ⟨⟨rest, hrest⟩, -⟩ := Service.find_eq_file.mp hroute
  have hpath : request.path = 47 :: rest := hrest.symm
  have hnul : (0 : UInt8) ∉ service.basedir ++ request.path := by
    rw [List.mem_append]
    rintro (hmem | hmem)
    · exact h0 (hpre.subset hmem)
    · exact normalUrlChar_ne_zero (hurl 0 hmem) rfl
  rw [StaysInside, opened_get, Buffer.cStr_of_notMem hnul]
  simp only [List.mem_singleton, forall_eq]
  rw [hpath, resolve_append hne, hresolve, Place.below_shift, ComesBack]

/-- `/a/../b.css` is looked for in the base directory `static/`. -/
theorem staysInside_inside : StaysInside (fun _ => none) ⟨[115, 116, 97, 116, 105, 99]⟩
    [115, 116, 97, 116, 105, 99, 47]
    ⟨.get, [47, 97, 47, 46, 46, 47, 98, 46, 99, 115, 115], []⟩ :=
  (staysInside_iff (by decide) (by decide) (by decide) (by decide +kernel) _).mpr (by decide)

/-- `/../disk.img` is looked for next to the base directory `static`. -/
theorem exists_not_staysInside : ∃ service request,
    new [115, 116, 97, 116, 105, 99] = some service ∧
    Service.find request.path = some .file ∧ (∀ c ∈ request.path, normalUrlChar c = true) ∧
    ¬ StaysInside (fun _ => none) service [115, 116, 97, 116, 105, 99] request := by
  refine ⟨⟨[115, 116, 97, 116, 105, 99]⟩,
    ⟨.get, [47, 46, 46, 47, 100, 105, 115, 107, 46, 105, 109, 103], []⟩, by decide, by decide,
    by decide +kernel, fun h => ?_⟩
  have hbelow := h _ (by rw [opened_get]; exact List.mem_singleton_self _)
  exact absurd hbelow.names (by decide)

end FileService

end Gunrock
