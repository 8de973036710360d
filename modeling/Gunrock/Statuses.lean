import Gunrock.Library.Script
import Gunrock.Updates

/-!
# Statuses

What the statuses of `PUT` and `DELETE` say about what went wrong: whether `507` means that a
call ran out of space, and what a client is told when a file stands where a directory would
have to be.

The handlers forget the answers of the calls they make, so `put` and `del` are written once
more as scripts of calls.  Run as they are, the scripts are the handlers (`Calls.run_put`,
`Calls.run_del`); run with a record, they tell which call has failed and how.
-/

namespace Gunrock

open Disk LocalFileSystem DistributedFileSystemService Wp

/-! ## Handlers as scripts -/

/-- What `PUT` and `DELETE` call. -/
inductive Call where
  | lookup (parentInodeNumber : Int) (name : Bytes)
  | mutation (op : Mutation)

def Call.run : Call → FS Int
  | lookup p name => LocalFileSystem.lookup p name
  | mutation op => op.run

/-- A handler as a script. -/
abbrev Calls := Script Call Int

namespace Calls

def lookup (p : Int) (name : Bytes) : Calls Int := .ask (.lookup p name)

def create (p type : Int) (name : Bytes) : Calls Int := .ask (.mutation (.create p type name))

def write (n : Int) (buf : Option (Nat → UInt8)) (size : Int) : Calls Int :=
  .ask (.mutation (.write n buf size))

def unlink (p : Int) (name : Bytes) : Calls Int := .ask (.mutation (.unlink p name))

def putWalk : Nat → Int → Bytes → Calls (Except Thrown (Int × Bytes))
  | 0, inum, path => return .ok (inum, path)
  | n + 1, inum, path => do
    match (cut path).2 with
    | none => return .ok (inum, path)
    | some path2 =>
      let ret ← lookup inum (cut path).1
      if ret = -eNotFound then
        let inum ← create inum ufsDirectory (cut path).1
        if inum < 0 then
          return .error (.clientError .badRequest)
        else
          putWalk n inum path2
      else if ret < 0 then
        return .error (.clientError .badRequest)
      else
        putWalk n ret path2

def openFile (parentInodeNumber : Int) (path : Bytes) : Calls (Except Thrown Int) := do
  let inum ← lookup parentInodeNumber path
  if inum = -eNotFound then
    let inum ← create parentInodeNumber ufsRegularFile path
    if inum < 0 then return .error (.clientError .insufficientStorage) else return .ok inum
  else if inum < 0 then
    return .error (.clientError .badRequest)
  else
    return .ok inum

/-- `putFile` from the call of `write` on. -/
def fill (content : Bytes) (inum : Int) : Calls Handled := do
  if (← write inum (some fun i => content.getD i 0) (int32 content.length)) < 0 then
    return .error (.clientError .insufficientStorage)
  else
    return .ok { status := 200, body := "File created or updated successfully.".toUTF8.toList }

def putFile (parentInodeNumber : Int) (path : Bytes) (content : Bytes) : Calls Handled := do
  match ← openFile parentInodeNumber path with
  | .error e => return .error e
  | .ok inum => fill content inum

def putEnd (content : Bytes) : Except Thrown (Int × Bytes) → Calls Handled
  | .error e => return .error e
  | .ok (inum, path) =>
    if path = [] then
      return .error (.clientError .badRequest)
    else
      putFile inum path content

def put (request : HTTPRequest) : Calls Handled := do
  let path := request.path.drop pathPrefix.length
  putEnd request.body (← putWalk path.length 0 path)

def delWalk : Nat → Int → Bytes → Calls (Except Thrown (Int × Bytes))
  | 0, inum, path => return .ok (inum, path)
  | n + 1, inum, path => do
    match (cut path).2 with
    | none => return .ok (inum, path)
    | some path2 =>
      let inum ← lookup inum (cut path).1
      if inum = -eNotFound then
        return .error (.clientError .notFound)
      else if inum < 0 then
        return .error (.clientError .badRequest)
      else
        delWalk n inum path2

def delEntry (inum : Int) (path : Bytes) : Calls Handled := do
  let dinum ← lookup inum path
  if dinum < 0 then
    return .error (.clientError .notFound)
  else
    let ret ← unlink inum path
    if ret = -eDirNotEmpty then
      return .error (.clientError .forbidden)
    else if ret = -eInvalidName then
      return .error (.clientError .notFound)
    else if ret < 0 then
      return .error (.clientError .insufficientStorage)
    else
      return .ok { status := 200, body := "Resource deleted successfully.".toUTF8.toList }

def del (request : HTTPRequest) : Calls Handled := do
  let path := request.path.drop pathPrefix.length
  let path := if path.getLast? = some 47 then path.dropLast else path
  match ← delWalk path.length 0 path with
  | .error e => return .error e
  | .ok (inum, path) =>
    if path = [] then
      return .error (.clientError .badRequest)
    else
      delEntry inum path

/-! ## The scripts are the handlers -/

section Run

variable {α : Type} {p type n : Int} {name path content : Bytes} {request : HTTPRequest}

theorem run_putWalk (k : Nat) : (putWalk k n path).run Call.run =
    DistributedFileSystemService.putWalk k n path := by
  induction k generalizing n path with
  | zero => rfl
  | succ k ih =>
      rw [putWalk, DistributedFileSystemService.putWalk]
      cases (cut path).2 with
      | none => rfl
      | some path2 =>
          simp only [lookup, create, Script.run_ask_bind, Script.run_ite, Script.pure_eq,
            Script.run_ret, ih]
          rfl

theorem run_fill : (fill content n).run Call.run = do
    if (← LocalFileSystem.write n (some fun i => content.getD i 0) (int32 content.length)) < 0 then
      return .error (.clientError .insufficientStorage)
    else
      return .ok
        { status := 200, body := "File created or updated successfully.".toUTF8.toList } := by
  simp only [fill, write, Script.run_ask_bind, Script.run_ite, Script.pure_eq, Script.run_ret]
  rfl

theorem run_openFile : (openFile n path).run Call.run =
    DistributedFileSystemService.openFile n path := by
  simp only [openFile, lookup, create, Script.run_ask_bind, Script.run_ite, Script.pure_eq,
    Script.run_ret]
  rfl

theorem run_putEnd (target : Except Thrown (Int × Bytes)) : (putEnd content target).run Call.run =
    DistributedFileSystemService.putEnd content target := by
  rcases target with e | ⟨inum, path⟩
  · rfl
  · simp only [putEnd, DistributedFileSystemService.putEnd, putFile,
      DistributedFileSystemService.putFile, Script.run_ite, Script.run_bind, run_openFile]
    congr 1
    refine bind_congr fun r => ?_
    cases r with
    | error e => rfl
    | ok inum => exact run_fill

theorem run_put : (put request).run Call.run = DistributedFileSystemService.put request := by
  simp only [put, DistributedFileSystemService.put, Script.run_bind, run_putWalk, run_putEnd]

theorem run_delWalk (k : Nat) : (delWalk k n path).run Call.run =
    DistributedFileSystemService.delWalk k n path := by
  induction k generalizing n path with
  | zero => rfl
  | succ k ih =>
      rw [delWalk, DistributedFileSystemService.delWalk]
      cases (cut path).2 with
      | none => rfl
      | some path2 =>
          simp only [lookup, Script.run_ask_bind, Script.run_ite, Script.pure_eq, Script.run_ret, ih]
          rfl

theorem run_delEntry : (delEntry n path).run Call.run =
    DistributedFileSystemService.delEntry n path := by
  simp only [delEntry, lookup, unlink, Script.run_ask_bind, Script.run_ite, Script.pure_eq,
    Script.run_ret]
  rfl

theorem run_del : (del request).run Call.run = DistributedFileSystemService.del request := by
  simp only [del, DistributedFileSystemService.del, Script.run_bind, run_delWalk]
  refine bind_congr fun target => ?_
  rcases target with e | ⟨inum, path⟩
  · rfl
  · simp only [Script.run_ite, run_delEntry]
    rfl

end Run

end Calls

/-! ## Whether `507` means that there was no space -/

/-- The status of the response. -/
def Handled.status : Handled → Int
  | .ok response => response.status
  | .error (.clientError ce) => ce.statusCode
  | .error .lengthError => 500

theorem wp_respond {d : Disk} (handled : Handled) :
    wp (respond handled) (fun response d' => response.status = handled.status ∧ d' = d) d := by
  rcases handled with (e | _) | response <;> exact (wp_pure _).mpr ⟨rfl, rfl⟩

/-- A `create` or `write` that failed for lack of space. -/
def OutOfSpace : Call × Int → Prop
  | (.mutation (.create _ _ _), r) => r = -eNotEnoughSpace
  | (.mutation (.write _ _ _), r) => r = -eNotEnoughSpace
  | _ => False

/-- A handler that has made these calls answers `507` if one of them was out of space, and only
then. -/
def Tells (answer : Handled × List (Call × Int)) : Prop :=
  answer.1.status = 507 ↔ ∃ call ∈ answer.2, OutOfSpace call

/-- The request, which `handler` serves, is answered by `507` just when a `create` or `write` made
for it was out of space. -/
def TellsSpace (d : Disk) (request : HTTPRequest) (handler : Calls Handled) : Prop :=
  ∀ response d', (invokeServiceMethod request).run d = .ok (response, d') →
    ∃ handled calls, (handler.trace Call.run).run d = .ok ((handled, calls), d') ∧
      (response.status = 507 ↔ ∃ call ∈ calls, OutOfSpace call)

section

variable {g : Geometry} {d d' : Disk} {i j n : Nat} {p type size : Int} {x path content : Bytes}
  {c : Prop} {k : Int → Calls Handled} {call : Call} {r : Int} {handled : Handled}
  {calls : List (Call × Int)}

@[simp] theorem outOfSpace_create :
    OutOfSpace (.mutation (.create p type x), r) ↔ r = -eNotEnoughSpace := Iff.rfl

@[simp] theorem outOfSpace_write {buf : Option (Nat → UInt8)} :
    OutOfSpace (.mutation (.write p buf size), r) ↔ r = -eNotEnoughSpace := Iff.rfl

instance : DecidablePred OutOfSpace
  | (.lookup _ _, _) => inferInstanceAs (Decidable False)
  | (.mutation (.create _ _ _), r) => inferInstanceAs (Decidable (r = -eNotEnoughSpace))
  | (.mutation (.write _ _ _), r) => inferInstanceAs (Decidable (r = -eNotEnoughSpace))
  | (.mutation (.unlink _ _), _) => inferInstanceAs (Decidable False)

theorem tells_nil : Tells (handled, []) ↔ handled.status ≠ 507 := by
  simp [Tells]

theorem tells_cons (h : ¬ OutOfSpace (call, r)) :
    Tells (handled, (call, r) :: calls) ↔ Tells (handled, calls) := by
  simp [Tells, h]

theorem tells_cons_of_outOfSpace (h : OutOfSpace (call, r)) :
    Tells (handled, (call, r) :: calls) ↔ handled.status = 507 := by
  simp [Tells, h]

/-! ### What `write` answers -/

theorem wp_write_of_nonpos (hsize : size ≤ 0) (m : Int) (buf : Nat → UInt8)
    {Q : Int → Disk → Prop} (hQ : Q (-eInvalidSize) d) : wp (write m (some buf) size) Q d := by
  dsimp only [write]
  rw [if_pos hsize, wp_pure]
  exact hQ

theorem wp_write_of_large (hsize : 0 < size) (hlarge : directPtrs < blockCount size) (m : Int)
    (buf : Nat → UInt8) {Q : Int → Disk → Prop} (hQ : Q (-eNotEnoughSpace) d) :
    wp (write m (some buf) size) Q d := by
  dsimp only [write]
  rw [if_neg (by omega), if_pos hlarge, wp_pure]
  exact hQ

theorem Serves.wp_write_directory (h : Serves g d) (hdir : Image.IsDirectory d.image j)
    (hsize : 0 < size) (hsmall : ¬ directPtrs < blockCount size) (buf : Nat → UInt8)
    {Q : Int → Disk → Prop} (hQ : Q (-eWriteToDir) d) : wp (write j (some buf) size) Q d := by
  obtain ⟨hb, ht⟩ := h.isDirectory.mp hdir
  have hne : ((g.volume d.image).inode j).type ≠ ufsRegularFile := by
    rw [ht]
    decide
  dsimp only [write]
  rw [if_neg (by omega), if_neg hsmall, wp_bind, wp_stat h.idle.toHolds, h.sound.stat_of_bit hb]
  dsimp only
  rw [if_pos hne, wp_pure]
  exact hQ

/-- Nothing is said here about whether the call returns: close to the end of an `int` it does
not. -/
theorem Serves.wlp_write_file (h : Serves g d) (hfile : Image.IsFile d.image j)
    (hsize : 0 < size) (buf : Nat → UInt8) :
    wlp (write j (some buf) size) (fun r _ => r = -eNotEnoughSpace ∨ r = size) d := by
  obtain ⟨hb, ht⟩ := h.isFile.mp hfile
  dsimp only [write]
  rw [if_neg (by omega), wlp_ite]
  refine ⟨fun _ => ?_, fun _ => ?_⟩
  · rw [wlp_pure]
    exact .inl rfl
  · rw [wlp_bind]
    refine wlp_of_wp ((wp_stat h.idle.toHolds _).mpr ?_)
    rw [h.sound.stat_of_bit hb]
    dsimp only
    rw [if_neg (by simpa using ht)]
    refine wlp_bind_of fun super d₁ => wlp_bind_of fun _ d₂ => wlp_bind_of fun resized d₃ => ?_
    cases resized with
    | none =>
        rw [wlp_pure]
        exact .inl rfl
    | some inode =>
        refine wlp_bind_of fun _ d₄ => wlp_bind_of fun _ d₅ => wlp_bind_of fun _ d₆ => ?_
        rw [wlp_pure]
        exact .inr rfl

/-! ### `PUT` -/

/-- A handler that ends here, and none of whose calls was out of space. -/
theorem decides_ret (hc : handled.status ≠ 507 ↔ c) :
    Decides c (Script.trace Call.run (Script.ret handled)) (fun a _ => Tells a) d := by
  refine .of_wp (Script.wp_trace_ret _ |>.mpr ?_)
  rw [tells_nil]
  exact hc

/-- A lookup leaves no trace in what the answer tells. -/
theorem Serves.decides_lookup (h : Serves g d)
    (hk : Decides c ((k (findName (nodes g d) p x)).trace Call.run) (fun a _ => Tells a) d) :
    Decides c ((Script.call (.lookup p x) k).trace Call.run) (fun a _ => Tells a) d := by
  refine Script.decides_trace_call (wp_lookup h.idle.toHolds h.sound p x ?_)
  exact hk.congr Iff.rfl fun a _ => tells_cons id

theorem Serves.decides_make (h : Serves g d) (ht : type = ufsDirectory ∨ type = ufsRegularFile)
    (hnf : findName (nodes g d) i x = -eNotFound)
    (hbad : BadName x → Decides c ((k (-eInvalidName)).trace Call.run) (fun a _ => Tells a) d)
    (hfull : ¬ BadName x → ¬ (inventory g d).CanMake i type x → ∀ d',
      wp ((k (-eNotEnoughSpace)).trace Call.run) (fun a _ => (a.1.status = 507 ↔ c)) d')
    (hok : (inventory g d).CanMake i type x → ∀ d', Serves g d' →
      inventory g d' = (inventory g d).make i type x →
      Decides c ((k (inventory g d).newInum).trace Call.run) (fun a _ => Tells a) d') :
    Decides c ((Script.call (.mutation (.create i type x)) k).trace Call.run)
      (fun a _ => Tells a) d := by
  refine Script.decides_trace_call (h.wp_make_cases ht hnf (fun hb => ?_)
    (fun hgood hno d' _ _ => ?_) fun hmake d' hd' hinv => ?_)
  · exact (hbad hb).congr Iff.rfl fun a _ => tells_cons (outOfSpace_create.not.mpr (by decide))
  · refine .of_wp (wp_mono (hfull hgood hno d') fun a _ ha => ?_)
    rw [tells_cons_of_outOfSpace (outOfSpace_create.mpr rfl), ha]
  · refine (hok hmake d' hd' hinv).congr Iff.rfl fun a _ => tells_cons ?_
    rw [outOfSpace_create]
    simp only [eNotEnoughSpace]
    omega

/-- The body can be written to `j` as far as its size goes: it is not empty, and if `j` is a
directory, it is too large for any file, which is what `write` checks first. -/
def Inventory.SizeTells (σ : Inventory) (j : Nat) (size : Int) : Prop :=
  0 < size ∧ ((∃ pp es, σ.node j = some (.dir pp es)) → directPtrs < blockCount size)

/-- What is answered after `write` returned `r`. -/
theorem wp_afterWrite {m : Int} {buf : Option (Nat → UInt8)}
    (hc : (r < 0 → r = -eNotEnoughSpace) ↔ c) :
    wp (Script.trace Call.run (if r < 0 then return .error (.clientError .insufficientStorage)
        else return .ok ⟨200, content⟩ : Calls Handled))
      (fun a _ => Tells (a.1, (.mutation (.write m buf size), r) :: a.2) ↔ c) d := by
  rw [← hc]
  split
  · rename_i hneg
    refine Script.wp_trace_ret _ |>.mpr ?_
    by_cases hr : r = -eNotEnoughSpace
    · rw [tells_cons_of_outOfSpace (outOfSpace_write.mpr hr)]
      exact iff_of_true rfl fun _ => hr
    · rw [tells_cons (outOfSpace_write.not.mpr hr), tells_nil]
      exact iff_of_false (by decide) fun himp => hr (himp hneg)
  · rename_i hpos
    have hr : r ≠ -eNotEnoughSpace := by
      simp only [eNotEnoughSpace]
      omega
    refine Script.wp_trace_ret _ |>.mpr ?_
    rw [tells_cons (outOfSpace_write.not.mpr hr), tells_nil]
    exact iff_of_true (show (200 : Int) ≠ 507 by decide) fun hneg => absurd hneg hpos

/-- `put` from the call of `write` on. -/
theorem Serves.decides_fill (h : Serves g d) (hj : Image.Allocated d.image j) :
    Decides ((inventory g d).SizeTells j (int32 content.length))
      ((Calls.fill content j).trace Call.run) (fun a _ => Tells a) d := by
  have hb := h.allocated.mp hj
  generalize hsize : int32 content.length = size
  have hcall : ∀ r, (∀ Q : Int → Disk → Prop, Q r d → wp (write j (some fun i => content.getD i 0)
      size) Q d) → ((r < 0 → r = -eNotEnoughSpace) ↔ (inventory g d).SizeTells j size) →
      Decides ((inventory g d).SizeTells j size) ((Calls.fill content j).trace Call.run)
        (fun a _ => Tells a) d := by
    intro r hwrite hr
    rw [Calls.fill, hsize]
    refine Script.decides_trace_call (hwrite _ (.of_wp ?_))
    exact wp_afterWrite hr
  rcases Int.lt_or_le 0 size with hpos | hneg
  swap
  · refine hcall _ (fun Q hQ => wp_write_of_nonpos hneg _ _ hQ) (iff_of_false (by decide) ?_)
    rintro ⟨hpos, -⟩
    omega
  by_cases hlarge : directPtrs < blockCount size
  · exact hcall _ (fun Q hQ => wp_write_of_large hpos hlarge _ _ hQ)
      (iff_of_true (fun _ => rfl) ⟨hpos, fun _ => hlarge⟩)
  rcases (h.sound.good hb).type with ht | ht
  · refine hcall _ (fun Q hQ => h.wp_write_directory (h.isDirectory.mpr ⟨hb, ht⟩) hpos hlarge _ hQ)
      (iff_of_false (by decide) ?_)
    rintro ⟨-, hdir⟩
    exact hlarge (hdir ⟨_, _, Volume.node_of_dir hb ht⟩)
  · have hsize' : (inventory g d).SizeTells j size := by
      refine ⟨hpos, ?_⟩
      rintro ⟨pp, es, hnode⟩
      rw [Volume.inventory_node] at hnode
      exact absurd ((Volume.dir_of_node hnode).symm.trans ht) (by decide)
    refine ⟨fun _ => ?_, fun hno => absurd hsize' hno⟩
    rw [Calls.fill, hsize]
    refine Script.wlp_trace_call.mpr (wlp_mono (h.wlp_write_file (h.isFile.mpr ⟨hb, ht⟩) hpos _)
      fun r d' hr => ?_)
    have hiff : (r < 0 → r = -eNotEnoughSpace) ↔ True := by
      rw [iff_true]
      intro hneg
      rcases hr with hr | hr
      · exact hr
      · omega
    exact wlp_mono (wlp_of_wp (wp_afterWrite hiff)) fun a _ ha => ha.mpr trivial

/-- From inode `p` on, the answer to a `PUT` of `size` bytes tells whether there was space.  A
missing directory that cannot be made must have a bad name, as the answer will be `400`; a
missing file that cannot be made must have a good one, as the answer will be `507`. -/
def Inventory.SpaceTells (size : Int) : Inventory → Int → List Bytes → Prop
  | _, _, [] => True
  | σ, p, [x] =>
    x = [] ∨ if findName σ.node p x = -eNotFound then
        (σ.CanMake p.toNat ufsRegularFile x → 0 < size) ∧
          (¬ σ.CanMake p.toNat ufsRegularFile x → ¬ BadName x)
      else 0 ≤ findName σ.node p x → σ.SizeTells (findName σ.node p x).toNat size
  | σ, p, x :: y :: ys =>
    if findName σ.node p x = -eNotFound then
      (σ.CanMake p.toNat ufsDirectory x →
        SpaceTells size (σ.make p.toNat ufsDirectory x) σ.newInum (y :: ys)) ∧
      (¬ σ.CanMake p.toNat ufsDirectory x → BadName x)
    else 0 ≤ findName σ.node p x → SpaceTells size σ (findName σ.node p x) (y :: ys)

/-! ### The walk -/

namespace Calls

theorem putFile_eq : putFile p x content = .call (.lookup p x) fun inum =>
    if inum = -eNotFound then
      .call (.mutation (.create p ufsRegularFile x)) fun inum =>
        if inum < 0 then .ret (.error (.clientError .insufficientStorage)) else fill content inum
    else if inum < 0 then .ret (.error (.clientError .badRequest))
    else fill content inum := by
  simp only [putFile, openFile, lookup, create, Script.ask_bind, Script.call_bind, Script.ite_bind,
    Script.pure_eq, Script.ret_bind]

theorem putWalk_bind {rest : Bytes} {m : Nat} (hc : (cut path).2 = some rest) :
    putWalk (m + 1) p path >>= putEnd content = .call (.lookup p (cut path).1) fun ret =>
      if ret = -eNotFound then
        .call (.mutation (.create p ufsDirectory (cut path).1)) fun inum =>
          if inum < 0 then .ret (.error (.clientError .badRequest))
          else putWalk m inum rest >>= putEnd content
      else if ret < 0 then .ret (.error (.clientError .badRequest))
      else putWalk m ret rest >>= putEnd content := by
  simp only [putWalk, hc, lookup, create, Script.ask_bind, Script.call_bind, Script.ite_bind,
    Script.pure_eq, Script.ret_bind]
  rfl

end Calls

theorem Serves.decides_putFile (h : Serves g d) (hx : x ≠ []) :
    Decides ((inventory g d).SpaceTells (int32 content.length) p [x])
      ((Calls.putFile p x content).trace Call.run) (fun a _ => Tells a) d := by
  rw [Calls.putFile_eq, Inventory.SpaceTells, or_iff_right hx, Volume.inventory_node]
  refine h.decides_lookup ?_
  by_cases hnf : findName (nodes g d) p x = -eNotFound
  · obtain ⟨i, -, -, rfl, -⟩ := findName_eq_notFound.mp hnf
    rw [if_pos hnf, if_pos hnf, Int.toNat_natCast]
    refine h.decides_make (.inr rfl) hnf (fun hbad => ?_) (fun hgood hno d' => ?_)
      fun hmake d' hd' hinv => ?_
    · rw [if_pos (by decide)]
      refine decides_ret (iff_of_false (by decide) fun hc => ?_)
      exact hc.2 (fun hmake => hmake.not_badName hnf hbad) hbad
    · rw [if_pos (by decide), Script.wp_trace_ret]
      exact iff_of_true rfl ⟨fun hmake => absurd hmake hno, fun _ => hgood⟩
    · have hnode : (inventory g d').node (inventory g d).newInum = some (.file []) := by
        rw [hinv, Inventory.make_newInum, newNode, if_neg (by decide)]
      rw [if_neg (by omega)]
      refine (hd'.decides_fill (hd'.allocated.mpr (Volume.bit_of_node hnode))).congr ?_
        fun _ _ => Iff.rfl
      constructor
      · rintro ⟨hsize, -⟩
        refine ⟨hsize hmake, ?_⟩
        rintro ⟨pp, es, hdir⟩
        rw [hnode] at hdir
        cases hdir
      · exact fun hsize => ⟨fun _ => hsize.1, fun hno => absurd hmake hno⟩
  · rw [if_neg hnf, if_neg hnf]
    by_cases hneg : findName (nodes g d) p x < 0
    · rw [if_pos hneg]
      exact decides_ret (iff_of_true (by decide) fun hpos => absurd hneg (Int.not_lt.mpr hpos))
    · obtain ⟨j, hj⟩ := Int.eq_ofNat_of_zero_le (Int.not_lt.mp hneg)
      rw [if_neg hneg, hj, Int.toNat_natCast]
      refine (h.decides_fill (h.allocated.mpr (h.sound.bit_of_findName hj))).congr ?_
        fun _ _ => Iff.rfl
      exact ⟨fun hc => hc (by omega), fun hc _ => hc⟩

theorem Serves.decides_putEnd (h : Serves g d) :
    Decides ((inventory g d).SpaceTells (int32 content.length) p [path])
      ((Calls.putEnd content (.ok (p, path))).trace Call.run) (fun a _ => Tells a) d := by
  rw [Calls.putEnd]
  by_cases hnil : path = []
  · rw [if_pos hnil, Inventory.SpaceTells]
    exact decides_ret (iff_of_true (by decide) (.inl hnil))
  · rw [if_neg hnil]
    exact h.decides_putFile hnil

/-- `put` from its loop on. -/
theorem Serves.decides_putWalk (h : Serves g d) {m : Nat} (hm : path.length ≤ m) :
    Decides ((inventory g d).SpaceTells (int32 content.length) p (components path))
      ((Calls.putWalk m p path >>= Calls.putEnd content).trace Call.run) (fun a _ => Tells a) d := by
  induction m generalizing d p path with
  | zero =>
      rw [List.length_eq_zero_iff.mp (Nat.le_zero.mp hm)]
      exact h.decides_putEnd
  | succ m ih =>
      cases hc : (cut path).2 with
      | none =>
          rw [(components_of_cut_none hc).1, Calls.putWalk, hc]
          exact h.decides_putEnd
      | some rest =>
          obtain ⟨hcomp, hlt⟩ := components_of_cut_some hc
          obtain ⟨y, ys, hrest⟩ := List.exists_cons_of_ne_nil (components_ne_nil rest)
          rw [Calls.putWalk_bind hc, hcomp, hrest, Inventory.SpaceTells, Volume.inventory_node]
          generalize (cut path).1 = x
          have hle : rest.length ≤ m := by omega
          refine h.decides_lookup ?_
          by_cases hnf : findName (nodes g d) p x = -eNotFound
          · obtain ⟨i, -, -, rfl, -⟩ := findName_eq_notFound.mp hnf
            rw [if_pos hnf, if_pos hnf, Int.toNat_natCast]
            refine h.decides_make (.inl rfl) hnf (fun hbad => ?_) (fun hgood hno d' => ?_)
              fun hmake d' hd' hinv => ?_
            · rw [if_pos (by decide)]
              refine decides_ret (iff_of_true (by decide) ⟨fun hmake => ?_, fun _ => hbad⟩)
              exact absurd hbad (hmake.not_badName hnf)
            · rw [if_pos (by decide), Script.wp_trace_ret]
              exact iff_of_false (by decide) fun hc => hgood (hc.2 hno)
            · rw [if_neg (by omega)]
              have hd := ih hd' (p := (inventory g d).newInum) hle
              rw [hinv, hrest] at hd
              refine hd.congr ?_ fun _ _ => Iff.rfl
              exact ⟨fun hc => hc.1 hmake, fun hc => ⟨fun _ => hc, fun hno => absurd hmake hno⟩⟩
          · rw [if_neg hnf, if_neg hnf]
            by_cases hneg : findName (nodes g d) p x < 0
            · rw [if_pos hneg]
              exact decides_ret
                (iff_of_true (by decide) fun hpos => absurd hneg (Int.not_lt.mpr hpos))
            · rw [if_neg hneg]
              have hd := ih h (p := findName (nodes g d) p x) hle
              rw [hrest] at hd
              refine hd.congr ?_ fun _ _ => Iff.rfl
              exact ⟨fun hc => hc (Int.not_lt.mp hneg), fun hc _ => hc⟩

/-! ### `DELETE` -/

/-- The last component is `.` or `..`, and those before it lead to a directory. -/
def UnlinksDots (d : Disk) (s : Bytes) : Prop :=
  ∃ (xs : List Bytes) (x : Bytes) (p : Nat), components (dropSlash s) = xs ++ [x] ∧
    (x = dot ∨ x = dotdot) ∧ Resolves d 0 xs p ∧ Image.IsDirectory d.image p

/-- `DELETE` makes no call that takes space. -/
theorem Calls.all_del (request : HTTPRequest) :
    (del request).All fun call => ∀ r, ¬ OutOfSpace (call, r) := by
  have hwalk : ∀ (k : Nat) (n : Int) (path : Bytes),
      (delWalk k n path).All fun call => ∀ r, ¬ OutOfSpace (call, r) := by
    intro k
    induction k with
    | zero => exact fun _ _ => trivial
    | succ k ih =>
        intro n path
        rw [delWalk]
        cases (cut path).2 with
        | none => trivial
        | some path2 => exact ⟨fun _ => id, fun r => .ite trivial (.ite trivial (ih _ _))⟩
  refine (hwalk _ _ _).bind fun target => ?_
  rcases target with e | ⟨inum, path⟩
  · trivial
  · refine .ite trivial ⟨fun _ => id, fun dinum => .ite trivial ⟨fun _ => id, fun ret => ?_⟩⟩
    exact .ite trivial (.ite trivial (.ite trivial trivial))

/-- `del` from the lookup of the entry on: what makes `unlink` fail with something that is not
answered by `403` or `404` is one of the names that it refuses. -/
theorem Serves.wp_delEntry_status (h : Serves g d) (hi : Image.Allocated d.image i) :
    wp (delEntry i x) (fun handled _ => handled.status = 507 ↔
      (x = dot ∨ x = dotdot) ∧ Image.IsDirectory d.image i) d := by
  have hb := h.allocated.mp hi
  rw [delEntry, wp_bind]
  refine wp_lookup h.idle.toHolds h.sound i x ?_
  by_cases hdir : Image.IsDirectory d.image i
  · have hnode := Volume.node_of_dir (g := g) hb (h.isDirectory.mp hdir).2
    by_cases hdots : x = dot ∨ x = dotdot
    · have hfound : ¬ findName (nodes g d) i x < 0 := by
        rw [nodes, findName_dir x hnode]
        rcases hdots with rfl | rfl
        · rw [if_pos (by decide)]
          omega
        · rw [if_neg (by decide), if_pos (by decide)]
          omega
      rw [if_neg hfound, wp_bind, unlink, if_pos hdots, wp_pure, if_neg (by decide),
        if_neg (by decide), if_pos (by decide), wp_pure]
      exact iff_of_true rfl ⟨hdots, hdir⟩
    · have hno : ∀ {status : Int}, status ≠ 507 →
          (status = 507 ↔ (x = dot ∨ x = dotdot) ∧ Image.IsDirectory d.image i) :=
        fun hs => iff_of_false hs fun hc => hdots hc.1
      split
      · rw [wp_pure]
        exact hno (by decide)
      · rw [wp_bind]
        refine wp_unlink_cases h.idle h.sound (fun hd => absurd hd hdots)
          (fun hnot => absurd hnode (hnot i rfl _ _)) (fun _ d' _ _ => ?_)
          (fun _ _ _ _ _ d' _ _ => ?_) fun _ _ _ _ _ d' _ => ?_
        · rw [if_neg (by decide), if_pos rfl, wp_pure]
          exact hno (by decide)
        · rw [if_pos rfl, wp_pure]
          exact hno (by decide)
        · rw [if_neg (by decide), if_neg (by decide), if_neg (by decide), wp_pure]
          exact hno (show (200 : Int) ≠ 507 by decide)
  · have hneg : findName (nodes g d) i x < 0 := by
      rw [nodes, findName_of_not_dir x fun pp es hnode =>
        hdir (h.isDirectory.mpr ⟨hb, Volume.dir_of_node hnode⟩)]
      decide
    rw [if_pos hneg, wp_pure]
    exact iff_of_false (by decide) fun hc => hdir hc.2

theorem Serves.wp_del_status (h : Serves g d) (s body : Bytes) :
    wp (del ⟨.delete, pathPrefix ++ s, body⟩) (fun handled _ => handled.status = 507 ↔ UnlinksDots d s)
      d := by
  have hiff : ∀ {ys : List Bytes} {y : Bytes}, components (dropSlash s) = ys ++ [y] →
      (UnlinksDots d s ↔ ∃ p : Nat, follow (nodes g d) 0 ys = p ∧ (y = dot ∨ y = dotdot) ∧
        Image.IsDirectory d.image p) := by
    intro ys y hc
    constructor
    · rintro ⟨xs, x, p, hc', hdots, hr, hdir⟩
      rw [hc] at hc'
      obtain ⟨rfl, rfl⟩ := List.concat_inj.mp (by simpa only [List.concat_eq_append] using hc')
      exact ⟨p, ((h.resolves_iff le_rfl).mp hr).1, hdots, hdir⟩
    · rintro ⟨p, hp, hdots, hdir⟩
      exact ⟨ys, y, p, hc, hdots, (h.resolves_iff le_rfl).mpr ⟨hp, by omega⟩, hdir⟩
  refine h.wp_del_walk s body (fun ys y hc hlost e he => ?_) fun ys y p hc hp => ?_
  · rw [hiff hc]
    refine iff_of_false (by rcases he with rfl | rfl <;> decide) ?_
    rintro ⟨p, hp, hdots, -⟩
    rcases hlost with hneg | rfl
    · omega
    · exact absurd hdots (by decide)
  · rw [hiff hc]
    refine wp_mono (h.wp_delEntry_status (h.allocated.mpr (h.sound.bit_of_follow hp)))
      fun handled _ hstatus => hstatus.trans ⟨fun hd => ⟨p, hp, hd⟩, ?_⟩
    rintro ⟨p', hp', hd⟩
    obtain rfl : p = p' := by omega
    exact hd

theorem Serves.decides_del (h : Serves g d) (s body : Bytes) :
    Decides (¬ UnlinksDots d s) ((Calls.del ⟨.delete, pathPrefix ++ s, body⟩).trace Call.run)
      (fun a _ => Tells a) d := by
  have hstatus := h.wp_del_status s body
  rw [← Calls.run_del, Script.wp_run] at hstatus
  obtain ⟨a, d', hrun, ha⟩ := hstatus
  refine .of_wp ⟨a, d', hrun, ?_⟩
  have hnone : ¬ ∃ call ∈ a.2, OutOfSpace call := by
    rintro ⟨call, hmem, hout⟩
    exact (Calls.all_del _).wlp_trace a d' hrun call hmem _ hout
  change (a.1.status = 507 ↔ _) ↔ _
  rw [ha]
  exact ⟨fun hiff hdots => hnone (hiff.mp hdots), fun hdots => iff_of_false hdots hnone⟩

theorem Serves.decides_put (h : Serves g d) (s body : Bytes) :
    Decides ((inventory g d).SpaceTells (int32 body.length) 0 (components s))
      ((Calls.put ⟨.put, pathPrefix ++ s, body⟩).trace Call.run) (fun a _ => Tells a) d := by
  simp only [Calls.put, drop_pathPrefix]
  exact h.decides_putWalk le_rfl

/-! ### The answer -/

/-- A request is answered as its handler's trace says. -/
theorem wp_invoke {request : HTTPRequest} {handler : Calls Handled}
    (hrun : handler.run Call.run = dispatch request) {Q : HTTPResponse → Disk → Prop} :
    (wp (invokeServiceMethod request) Q d ↔ wp (handler.trace Call.run)
      (fun a d' => wp (respond a.1) Q d') d) := by
  rw [invokeServiceMethod, wp_bind, ← hrun, Script.wp_run]

theorem exists_trace {request : HTTPRequest} {response : HTTPResponse} {handler : Calls Handled}
    (hrun : handler.run Call.run = dispatch request)
    (h : (invokeServiceMethod request).run d = .ok (response, d')) :
    ∃ handled calls, (handler.trace Call.run).run d = .ok ((handled, calls), d') ∧
      response.status = handled.status := by
  have hw : wp (invokeServiceMethod request) (fun r t => r = response ∧ t = d') d :=
    ⟨response, d', h, rfl, rfl⟩
  obtain ⟨⟨handled, calls⟩, d₁, htrace, r, t, hr, rfl, rfl⟩ := (wp_invoke hrun).mp hw
  obtain ⟨hstatus, rfl⟩ := wlp_of_wp (wp_respond handled) _ _ hr
  exact ⟨handled, calls, htrace, hstatus⟩

theorem TellsSpace.of_decides {request : HTTPRequest} {handler : Calls Handled}
    (hrun : handler.run Call.run = dispatch request)
    (h : Decides c (handler.trace Call.run) (fun a _ => Tells a) d) :
    TellsSpace d request handler ↔ c := by
  rw [← h.wlp_iff]
  constructor
  · rintro ht ⟨handled, calls⟩ d' htrace
    obtain ⟨response, d₁, hresponse, hstatus, rfl⟩ := wp_respond (d := d') handled
    have hinvoke : wp (invokeServiceMethod request) (fun r t => r = response ∧ t = d₁) d :=
      (wp_invoke hrun).mpr ⟨_, _, htrace, response, d₁, hresponse, rfl, rfl⟩
    obtain ⟨_, _, hinvoke, rfl, rfl⟩ := hinvoke
    obtain ⟨handled', calls', htrace', hiff⟩ := ht _ _ hinvoke
    rw [htrace] at htrace'
    cases htrace'
    rw [hstatus] at hiff
    exact hiff
  · intro htells response d' hresponse
    obtain ⟨handled, calls, htrace, hstatus⟩ := exists_trace hrun hresponse
    refine ⟨handled, calls, htrace, ?_⟩
    rw [hstatus]
    exact htells _ _ htrace

/-- The first components of the path, though not all of them, lead to a file. -/
def FileInTheWay (d : Disk) (s : Bytes) : Prop :=
  ∃ (xs ys : List Bytes) (i : Nat), components s = xs ++ ys ∧ ys ≠ [] ∧ Resolves d 0 xs i ∧
    Image.IsFile d.image i

/-- A `PUT` to the path `s` is answered by `status`, and changes nothing. -/
def PutAnswers (d : Disk) (s body : Bytes) (status : Int) : Prop :=
  ∃ response d', (invokeServiceMethod ⟨.put, pathPrefix ++ s, body⟩).run d = .ok (response, d') ∧
    response.status = status ∧ d'.image = d.image

/-- `put` throws two errors, and `ClientError::conflict` is neither of them. -/
theorem Calls.ends_put (request : HTTPRequest) : (put request).Ends fun handled =>
    handled.status = 200 ∨ handled.status = 400 ∨ handled.status = 507 := by
  have hwalk : ∀ (k : Nat) (n : Int) (path : Bytes), (putWalk k n path).Ends fun target =>
      ∀ e, target = .error e → e = .clientError .badRequest := by
    intro k
    induction k with
    | zero => exact fun n path e he => by cases he
    | succ k ih =>
        intro n path
        have hbad : (Script.ret (.error (.clientError .badRequest)) :
            Calls (Except Thrown (Int × Bytes))).Ends fun target =>
              ∀ e, target = .error e → e = .clientError .badRequest := by
          rintro e ⟨⟩
          rfl
        rw [putWalk]
        cases (cut path).2 with
        | none => exact fun e he => by cases he
        | some path2 =>
            exact fun ret => .ite (fun inum => .ite hbad (ih _ _)) (.ite hbad (ih _ _))
  have hfill : ∀ (content : Bytes) (n : Int), (fill content n).Ends fun handled =>
      handled.status = 200 ∨ handled.status = 400 ∨ handled.status = 507 :=
    fun content n r => .ite (.inr (.inr rfl)) (.inl rfl)
  refine (hwalk _ _ _).bind fun target htarget => ?_
  rcases target with e | ⟨inum, path⟩
  · rw [htarget e rfl]
    exact .inr (.inl rfl)
  · refine .ite (.inr (.inl rfl)) ?_
    rw [putFile_eq]
    exact fun ret => .ite (fun inum => .ite (.inr (.inr rfl)) (hfill _ _))
      (.ite (.inr (.inl rfl)) (hfill _ _))

theorem not_putAnswers_conflict (d : Disk) (s body : Bytes) :
    ¬ PutAnswers d s body ClientError.conflict.statusCode := by
  rintro ⟨response, d', hrun, hstatus, -⟩
  obtain ⟨handled, d₁, hput, hresponse⟩ := run_bind_ok.mp hrun
  obtain ⟨heq, -⟩ := wlp_of_wp (wp_respond handled) _ _ hresponse
  have hput : (put ⟨.put, pathPrefix ++ s, body⟩).run d = .ok (handled, d₁) := hput
  rw [← Calls.run_put] at hput
  have hends := (Calls.ends_put _).wlp_run handled d₁ hput
  rw [hstatus] at heq
  rw [← heq] at hends
  exact absurd hends (by decide)

/-- A lookup in a file fails. -/
theorem Serves.findName_file (h : Serves g d) (hi : Image.IsFile d.image i) (x : Bytes) :
    findName (nodes g d) i x = -eInvalidInode := by
  refine findName_of_not_dir x fun pp es hnode => ?_
  have ht := (h.isFile.mp hi).2
  rw [Volume.dir_of_node hnode] at ht
  exact absurd ht (by decide)

/-- A component below a file cannot be entered. -/
theorem Serves.enter_file (h : Serves g d) (hi : Image.IsFile d.image i) {α : Type} (type : Int)
    (x : Bytes) (full bad : FS α) (next : Int → FS α) :
    (enter type i x full bad next).run d = bad.run d := by
  have hno := h.findName_file hi x
  refine h.enter_bad ?_ ?_
  · rw [hno]
    decide
  · rw [hno]
    decide

/-- From a file on, `put` goes nowhere, be it in its loop or behind it. -/
theorem Serves.wp_putAlong_file (h : Serves g d) {ys : List Bytes} (hi : Image.IsFile d.image i)
    (hys : ys ≠ []) : wp (putAlong i ys >>= putEnd content) (fun handled d' =>
      handled = .error (.clientError .badRequest) ∧ d' = d) d := by
  rw [wp_bind]
  cases ys with
  | nil => exact absurd rfl hys
  | cons y ys =>
      by_cases hne : ys = []
      · rw [hne, putAlong, wp_pure, putEnd]
        split
        · rw [wp_pure]
          exact ⟨rfl, rfl⟩
        · rw [putFile, openFile_eq, wp_bind, wp_congr_run (h.enter_file hi _ y _ _ _), wp_pure,
            wp_pure]
          exact ⟨rfl, rfl⟩
      · rw [putAlong_cons _ y hne, wp_congr_run (h.enter_file hi _ y _ _ _), wp_pure, putEnd,
          wp_pure]
        exact ⟨rfl, rfl⟩

/-- Where a directory would be needed and a file exists, a `PUT` is not answered by `409`; in a
run that starts from a proper layout it is answered by `400`. -/
theorem Reachable.put_fileInTheWay {numInodes numData : Int} (h : Reachable numInodes numData d)
    {s : Bytes} (hs : FileInTheWay d s) (body : Bytes) :
    ¬ PutAnswers d s body ClientError.conflict.statusCode ∧
      (Mkfs.NoOverflow numInodes numData → PutAnswers d s body ClientError.badRequest.statusCode) := by
  refine ⟨not_putAnswers_conflict d s body, fun hno => ?_⟩
  obtain ⟨g, -, -, hserves, -⟩ := h.serves hno
  obtain ⟨xs, ys, i, hc, hys, hr, hi⟩ := hs
  have hfollow := ((hserves.resolves_iff le_rfl).mp hr).1
  have hput : wp (put ⟨.put, pathPrefix ++ s, body⟩) (fun handled d' =>
      handled = .error (.clientError .badRequest) ∧ d' = d) d := by
    have hwalk := hserves.putAlong_append hys hfollow (Int.natCast_nonneg i)
    rw [put_eq, hc, wp_bind, wp_congr_run hwalk, ← wp_bind]
    exact hserves.wp_putAlong_file hi hys
  obtain ⟨response, d', hrun, hstatus, rfl⟩ : wp (invokeServiceMethod ⟨.put, pathPrefix ++ s, body⟩)
      (fun response d' => response.status = 400 ∧ d' = d) d := by
    rw [invokeServiceMethod, wp_bind]
    refine wp_mono hput ?_
    rintro handled d' ⟨rfl, rfl⟩
    exact wp_respond _
  exact ⟨response, d', hrun, hstatus, rfl⟩

/-- The file `a` is in the way of `a/b`. -/
theorem exists_fileInTheWay : ∃ d, Reachable 32 32 d ∧ FileInTheWay d [97, 47, 98] := by
  obtain ⟨d, hd, hlookup, hfile, -⟩ := exists_reachable_file
  obtain ⟨d', hlookup⟩ := run_of_result hlookup
  refine ⟨d, hd, [[97]], [[98]], 1, by decide, by simp, ?_, hfile⟩
  exact .cons hlookup (by decide) (.nil 1)

theorem exists_put_fileInTheWay : ∃ d, Reachable 32 32 d ∧
    ¬ PutAnswers d [97, 47, 98] [65] 409 ∧ PutAnswers d [97, 47, 98] [65] 400 := by
  obtain ⟨d, hd, hway⟩ := exists_fileInTheWay
  obtain ⟨hnot, hbad⟩ := hd.put_fileInTheWay hway [65]
  exact ⟨d, hd, hnot, hbad (by decide)⟩

theorem exists_not_conflict : ∃ d, Reachable 32 32 d ∧ FileInTheWay d [97, 47, 98] ∧
    ¬ PutAnswers d [97, 47, 98] [65] 409 := by
  obtain ⟨d, hd, hway⟩ := exists_fileInTheWay
  exact ⟨d, hd, hway, not_putAnswers_conflict d _ _⟩

end

end Gunrock
