import Gunrock.LocalFileSystem

/-!
# The service

`DistributedFileSystemService.cpp`: the `GET`, `PUT` and `DELETE` handlers under `/ds3/`,
and `invoke_service_method` of `gunrock.cpp`, which turns what a handler throws into a
status.
-/

namespace Gunrock

/-! ## Requests, responses and exceptions -/

inductive Method where
  | get | head | post | put | delete | move | other
deriving DecidableEq, Repr

structure HTTPRequest where
  method : Method
  path : Bytes
  body : Bytes
deriving DecidableEq, Repr

structure HTTPResponse where
  status : Int := 200
  body : Bytes := []
deriving DecidableEq, Repr

structure ClientError where
  text : String
  statusCode : Int
deriving DecidableEq, Repr

namespace ClientError

def badRequest : ClientError := ⟨"Bad Request", 400⟩
def forbidden : ClientError := ⟨"Forbidden", 403⟩
def notFound : ClientError := ⟨"Not Found", 404⟩
def methodNotAllowed : ClientError := ⟨"Method Not Allowed", 405⟩
def conflict : ClientError := ⟨"Conflict", 409⟩
def insufficientStorage : ClientError := ⟨"Insufficient Storage", 507⟩

end ClientError

/-- What a handler can throw. -/
inductive Thrown where
  | clientError (e : ClientError)
  /-- `std::length_error`, from the constructor of `std::string`. -/
  | lengthError
deriving DecidableEq, Repr

/-- A handler's outcome; a handler that throws has not touched the response. -/
abbrev Handled := Except Thrown HTTPResponse

namespace DistributedFileSystemService

open LocalFileSystem

/-- `"/ds3/"` -/
def pathPrefix : Bytes := [47, 100, 115, 51, 47]

@[simp] theorem drop_pathPrefix (s : Bytes) : (pathPrefix ++ s).drop pathPrefix.length = s :=
  List.drop_left

/-- The part of `path` before its first `/`, and the part behind it if there is a `/`. -/
def cut (path : Bytes) : Bytes × Option Bytes :=
  (path.takeWhile (· ≠ 47), (path.dropWhile (· ≠ 47)).tail?)

/-! ## `GET` -/

/-- The loop of `get` over the components of a path; `n` is at least its length. -/
def getWalk : Nat → Int → Bytes → FS Int
  | 0, inum, _ => return inum
  | n + 1, inum, path => do
    if path = [] then
      return inum
    else
      let inum ← lookup inum (cut path).1
      if inum < 0 then return inum else getWalk n inum ((cut path).2.getD [])

/-- The entry at index `k` of the directory contents in `buffer`. -/
def bufferEntry (buffer : Bytes) (k : Nat) : DirEnt :=
  DirEnt.decode (Buffer.ofFn fun i => buffer.getD (32 * k + i) 0)

/-- The loop of `get` over the entries of a directory, `n` of them from the `k`-th on. -/
def listFrom (buffer : Bytes) : Nat → Nat → FS Bytes
  | 0, _ => return []
  | n + 1, k => do
    let entry := bufferEntry buffer k
    if entry.inum ≠ -1 ∧ entry.cname ≠ dot ∧ entry.cname ≠ dotdot then
      match ← stat entry.inum with
      | .error _ => listFrom buffer n (k + 1)
      | .ok inode =>
        let line := if inode.type = ufsDirectory then entry.cname ++ [47, 10]
          else entry.cname ++ [10]
        return line ++ (← listFrom buffer n (k + 1))
    else
      listFrom buffer n (k + 1)

def get (request : HTTPRequest) : FS Handled := do
  let path := request.path.drop pathPrefix.length
  let inum ← getWalk path.length 0 path
  if inum < 0 then
    return .error (.clientError .notFound)
  else
    match ← stat inum with
    | .error _ => return .error (.clientError .notFound)
    | .ok inode =>
      if inode.type = ufsDirectory then
        let (br, buffer) ← read inum maxFileSize
        let ss ← listFrom buffer ((br + 31) / 32).toNat 0
        return .ok { body := ss }
      else
        let (br, buffer) ← read inum inode.size
        if br < 0 then
          return .error .lengthError
        else
          return .ok { body := buffer }

/-! ## `PUT` -/

/-- The loop of `put`, which makes the directories of the path that do not exist; it ends
with the directory reached and the last component. -/
def putWalk : Nat → Int → Bytes → FS (Except Thrown (Int × Bytes))
  | 0, inum, path => return .ok (inum, path)
  | n + 1, inum, path => do
    match (cut path).2 with
    | none => return .ok (inum, path)
    | some path2 =>
      let ret ← lookup inum (cut path).1
      if ret = -eNotFound then
        let inum ← create inum ufsDirectory (cut path).1
        if inum < 0 then
          return .error (.clientError .badRequest)
        else
          putWalk n inum path2
      else if ret < 0 then
        return .error (.clientError .badRequest)
      else
        putWalk n ret path2

/-- The file of `put`, made when there is none. -/
def openFile (parentInodeNumber : Int) (path : Bytes) : FS (Except Thrown Int) := do
  let inum ← lookup parentInodeNumber path
  if inum = -eNotFound then
    let inum ← create parentInodeNumber ufsRegularFile path
    if inum < 0 then return .error (.clientError .insufficientStorage) else return .ok inum
  else if inum < 0 then
    return .error (.clientError .badRequest)
  else
    return .ok inum

/-- `put` from the lookup of the file on. -/
def putFile (parentInodeNumber : Int) (path : Bytes) (content : Bytes) : FS Handled := do
  match ← openFile parentInodeNumber path with
  | .error e => return .error e
  | .ok inum =>
    if (← write inum (some fun i => content.getD i 0) (int32 content.length)) < 0 then
      return .error (.clientError .insufficientStorage)
    else
      return .ok { status := 200, body := "File created or updated successfully.".toUTF8.toList }

/-- `put` from the end of its loop on. -/
def putEnd (content : Bytes) : Except Thrown (Int × Bytes) → FS Handled
  | .error e => return .error e
  | .ok (inum, path) =>
    if path = [] then
      return .error (.clientError .badRequest)
    else
      putFile inum path content

def put (request : HTTPRequest) : FS Handled := do
  let path := request.path.drop pathPrefix.length
  putEnd request.body (← putWalk path.length 0 path)

/-! ## `DELETE` -/

/-- The loop of `del`. -/
def delWalk : Nat → Int → Bytes → FS (Except Thrown (Int × Bytes))
  | 0, inum, path => return .ok (inum, path)
  | n + 1, inum, path => do
    match (cut path).2 with
    | none => return .ok (inum, path)
    | some path2 =>
      let inum ← lookup inum (cut path).1
      if inum = -eNotFound then
        return .error (.clientError .notFound)
      else if inum < 0 then
        return .error (.clientError .badRequest)
      else
        delWalk n inum path2

/-- `del` from the lookup of the entry on. -/
def delEntry (inum : Int) (path : Bytes) : FS Handled := do
  let dinum ← lookup inum path
  if dinum < 0 then
    return .error (.clientError .notFound)
  else
    let ret ← unlink inum path
    if ret = -eDirNotEmpty then
      return .error (.clientError .forbidden)
    else if ret = -eInvalidName then
      return .error (.clientError .notFound)
    else if ret < 0 then
      return .error (.clientError .insufficientStorage)
    else
      return .ok { status := 200, body := "Resource deleted successfully.".toUTF8.toList }

def del (request : HTTPRequest) : FS Handled := do
  let path := request.path.drop pathPrefix.length
  let path := if path.getLast? = some 47 then path.dropLast else path
  match ← delWalk path.length 0 path with
  | .error e => return .error e
  | .ok (inum, path) =>
    if path = [] then
      return .error (.clientError .badRequest)
    else
      delEntry inum path

/-! ## Dispatch -/

/-- The methods `HttpService` refuses by default. -/
def methodNotAllowed : FS Handled := return .error (.clientError .methodNotAllowed)

/-- The handler for the request's method. -/
def dispatch (request : HTTPRequest) : FS Handled :=
  match request.method with
  | .head => methodNotAllowed
  | .get => get request
  | .put => put request
  | .post => methodNotAllowed
  | .delete => del request
  | .move => methodNotAllowed
  | .other => return .ok { status := 501 }

/-- The `catch` clauses of `invoke_service_method`. -/
def respond : Handled → FS HTTPResponse
  | .ok response => return response
  | .error (.clientError ce) => return { status := ce.statusCode }
  | .error .lengthError => return { status := 500, body := [] }

/-- `invoke_service_method`, for this service. -/
def invokeServiceMethod (request : HTTPRequest) : FS HTTPResponse := do
  respond (← dispatch request)

end DistributedFileSystemService

end Gunrock
