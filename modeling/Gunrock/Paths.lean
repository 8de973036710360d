import Gunrock.Consistency
import Gunrock.DistributedFileSystemService

/-!
# Paths

How the handlers get from the text of a path to an inode: they cut it at the slashes and
look its components up one after the other.  `follow` is that walk in terms of nodes;
`Resolves` is the same walk in terms of the calls that are made.

`GET` walks over all components, where a slash at the end does not count (`trimmed`), and
`DELETE` over all but the last.  `PUT` does so too, and makes what is missing (`putAlong`).
-/

namespace Gunrock

open Disk LocalFileSystem DistributedFileSystemService Wp

/-! ## Components -/

/-- What stands between the slashes. -/
def components (path : Bytes) : List Bytes := path.splitOn 47

/-- The components, without an empty one at the end. -/
def trimmed (path : Bytes) : List Bytes :=
  if (components path).getLast? = some [] then (components path).dropLast else components path

variable {path rest : Bytes}

theorem components_ne_nil (path : Bytes) : components path ≠ [] := List.splitOn_ne_nil _ _

/-- There is a last component. -/
theorem components_eq_concat (path : Bytes) : ∃ xs x, components path = xs ++ [x] := by
  rcases List.eq_nil_or_concat (components path) with hnil | ⟨xs, x, hc⟩
  · exact absurd hnil (components_ne_nil path)
  · exact ⟨xs, x, by rw [hc, List.concat_eq_append]⟩

theorem components_of_cut_none (h : (cut path).2 = none) :
    components path = [path] ∧ (cut path).1 = path := by
  have hnil : path.dropWhile (· ≠ 47) = [] := by
    cases hd : path.dropWhile (· ≠ 47) with
    | nil => rfl
    | cons c cs =>
        rw [cut, hd] at h
        cases h
  have hno : ∀ x ∈ path, x ≠ 47 := by simpa using List.dropWhile_eq_nil_iff.mp hnil
  refine ⟨List.splitOn_eq_singleton fun hmem => hno 47 hmem rfl, ?_⟩
  rw [cut, List.takeWhile_eq_self_iff]
  simpa using hno

theorem components_of_cut_some (h : (cut path).2 = some rest) :
    components path = (cut path).1 :: components rest ∧ rest.length < path.length := by
  obtain ⟨c, hc⟩ : ∃ c, path.dropWhile (· ≠ 47) = c :: rest := by
    cases hd : path.dropWhile (· ≠ 47) with
    | nil =>
        rw [cut, hd] at h
        cases h
    | cons c cs =>
        rw [cut, hd] at h
        cases h
        exact ⟨c, rfl⟩
  have hslash : c = 47 := by
    have hhead := List.head?_dropWhile_not (· ≠ 47) path
    rw [hc] at hhead
    simpa using hhead
  have hsplit : path = (cut path).1 ++ 47 :: rest := by
    rw [← hslash, ← hc, cut, List.takeWhile_append_dropWhile]
  have hno : (47 : UInt8) ∉ (cut path).1 := by
    intro hmem
    simpa using List.mem_takeWhile_imp hmem
  constructor
  · conv_lhs => rw [components, hsplit]
    exact List.splitOn_append_cons_self_of_not_mem hno rest
  · have hlen := congrArg List.length hsplit
    rw [List.length_append, List.length_cons] at hlen
    omega

@[simp] theorem trimmed_nil : trimmed [] = [] := rfl

/-- `GET` takes one component off the path. -/
theorem trimmed_cut (h : path ≠ []) :
    trimmed path = (cut path).1 :: trimmed ((cut path).2.getD []) := by
  cases hc : (cut path).2 with
  | none =>
      obtain ⟨hcomp, hcut⟩ := components_of_cut_none hc
      rw [trimmed, hcomp, hcut, Option.getD_none, trimmed_nil, if_neg (by simpa using h)]
  | some rest =>
      obtain ⟨hcomp, -⟩ := components_of_cut_some hc
      have hne := components_ne_nil rest
      rw [trimmed, hcomp, Option.getD_some, List.getLast?_cons_of_ne_nil hne, trimmed]
      split
      · rw [List.dropLast_cons_of_ne_nil hne]
      · rfl

/-! ## The loop of `put` -/

/-- A component of the path of a `PUT`: it is looked up, and made when it is missing, and then it
goes on with `next`. -/
def enter {α : Type} (type inum : Int) (x : Bytes) (full bad : FS α) (next : Int → FS α) : FS α := do
  let ret ← lookup inum x
  if ret = -eNotFound then
    let inum ← create inum type x
    if inum < 0 then full else next inum
  else if ret < 0 then bad
  else next ret

/-- `putWalk`, along the components of the path. -/
def putAlong : Int → List Bytes → FS (Except Thrown (Int × Bytes))
  | inum, [] => return .ok (inum, [])
  | inum, [x] => return .ok (inum, x)
  | inum, x :: y :: ys =>
    enter ufsDirectory inum x (return .error (.clientError .badRequest))
      (return .error (.clientError .badRequest)) fun r => putAlong r (y :: ys)

theorem putAlong_cons (inum : Int) (x : Bytes) {xs : List Bytes} (h : xs ≠ []) :
    putAlong inum (x :: xs) = enter ufsDirectory inum x (return .error (.clientError .badRequest))
      (return .error (.clientError .badRequest)) fun r => putAlong r xs := by
  obtain ⟨y, ys, rfl⟩ := List.exists_cons_of_ne_nil h
  rfl

theorem putWalk_eq {n : Nat} (hn : path.length ≤ n) (inum : Int) :
    putWalk n inum path = putAlong inum (components path) := by
  induction n generalizing inum path with
  | zero =>
      rw [List.length_eq_zero_iff.mp (Nat.le_zero.mp hn)]
      rfl
  | succ n ih =>
      rw [putWalk]
      cases hc : (cut path).2 with
      | none =>
          rw [(components_of_cut_none hc).1]
          rfl
      | some rest =>
          obtain ⟨hcomp, hlt⟩ := components_of_cut_some hc
          rw [hcomp, putAlong_cons _ _ (components_ne_nil rest)]
          simp only [ih (show rest.length ≤ n by omega)]
          rfl

theorem openFile_eq (inum : Int) (x : Bytes) : openFile inum x =
    enter ufsRegularFile inum x (return .error (.clientError .insufficientStorage))
      (return .error (.clientError .badRequest)) fun r => return .ok r := rfl

/-- `put`, on a path of the service. -/
theorem put_eq (s content : Bytes) : put ⟨.put, pathPrefix ++ s, content⟩ =
    putAlong 0 (components s) >>= putEnd content := by
  simp only [put, drop_pathPrefix, putWalk_eq le_rfl]

/-! ## Walks -/

/-- Look up the components one after the other; the first lookup that fails is the answer. -/
def follow (f : Namespace Nat Bytes Bytes) : Int → List Bytes → Int
  | p, [] => p
  | p, x :: xs => if findName f p x < 0 then findName f p x else follow f (findName f p x) xs

/-- The lookups of the components lead from inode `p` to inode `q`. -/
inductive Resolves (d : Disk) : Int → List Bytes → Int → Prop
  | nil (p : Int) : Resolves d p [] p
  | cons {p q r : Int} {x : Bytes} {xs : List Bytes} {d' : Disk} :
      (lookup p x).run d = .ok (q, d') → 0 ≤ q → Resolves d q xs r → Resolves d p (x :: xs) r

variable {g : Geometry} {d : Disk} {v : Volume} {f : Namespace Nat Bytes Bytes} {p q : Int}
  {xs : List Bytes}

theorem follow_concat (x : Bytes) : follow f p (xs ++ [x]) =
    if follow f p xs < 0 ∧ xs ≠ [] then follow f p xs else findName f (follow f p xs) x := by
  induction xs generalizing p with
  | nil =>
      simp [follow]
  | cons y ys ih =>
      rw [List.cons_append, follow, follow]
      split
      · rename_i hneg
        rw [if_pos ⟨hneg, by simp⟩]
      · rename_i hpos
        rw [ih]
        cases ys with
        | nil => simp [follow, hpos]
        | cons z zs => simp

theorem follow_singleton (f : Namespace Nat Bytes Bytes) (p : Int) (x : Bytes) :
    follow f p [x] = findName f p x := by
  rw [follow, follow]
  split
  · rfl
  · rfl

theorem follow_cons {x : Bytes} {j : Nat} (hj : findName f p x = j) (xs : List Bytes) :
    follow f p (x :: xs) = follow f j xs := by
  rw [follow, hj, if_neg (by omega)]

theorem follow_append {ys : List Bytes} (hxs : follow f p xs = q) (hq : 0 ≤ q) :
    follow f p (xs ++ ys) = follow f q ys := by
  induction xs generalizing p with
  | nil =>
      obtain rfl : p = q := hxs
      rfl
  | cons x xs ih =>
      rw [follow] at hxs
      rw [List.cons_append, follow]
      split at hxs
      · omega
      · rename_i hpos
        rw [if_neg hpos, ih hxs]

/-- A walk from the root that ends somewhere has not failed before. -/
theorem nonneg_of_follow_concat {x : Bytes} {j : Nat} (h : follow f 0 (xs ++ [x]) = j) :
    0 ≤ follow f 0 xs ∧ findName f (follow f 0 xs) x = j := by
  rw [follow_concat] at h
  split at h
  · omega
  · rename_i hno
    refine ⟨?_, h⟩
    by_cases hxs : xs = []
    · rw [hxs, follow]
    · exact Int.not_lt.mp fun hneg => hno ⟨hneg, hxs⟩

theorem Serves.lookup_run (h : Serves g d) (p : Int) (x : Bytes) :
    (lookup p x).run d = .ok (findName (nodes g d) p x, d) := by
  obtain ⟨r, d', hrun, rfl, rfl⟩ := wp_lookup h.idle.toHolds h.sound p x
    (Q := fun r d' => r = findName (nodes g d) p x ∧ d' = d) ⟨rfl, rfl⟩
  exact hrun

theorem not_notFound {r : Int} (h : 0 ≤ r) : r ≠ -eNotFound := by
  simp only [eNotFound]
  omega

section Enter

variable {α : Type} {type : Int} {x : Bytes} {full bad : FS α} {next : Int → FS α}

theorem Serves.enter_found (h : Serves g d) (hpos : 0 ≤ findName (nodes g d) p x) :
    (enter type p x full bad next).run d = (next (findName (nodes g d) p x)).run d := by
  rw [enter, run_bind_of_ok (h.lookup_run p x), if_neg (not_notFound hpos),
    if_neg (Int.not_lt.mpr hpos)]

theorem Serves.enter_bad (h : Serves g d) (hneg : findName (nodes g d) p x < 0)
    (hnf : findName (nodes g d) p x ≠ -eNotFound) :
    (enter type p x full bad next).run d = bad.run d := by
  rw [enter, run_bind_of_ok (h.lookup_run p x), if_neg hnf, if_pos hneg]

end Enter

/-- The components that are there are walked over. -/
theorem Serves.putAlong_append (h : Serves g d) {ys : List Bytes} (hys : ys ≠ [])
    (hq : follow (nodes g d) p xs = q) (hpos : 0 ≤ q) :
    (putAlong p (xs ++ ys)).run d = (putAlong q ys).run d := by
  induction xs generalizing p with
  | nil =>
      obtain rfl : p = q := hq
      rfl
  | cons x xs ih =>
      rw [follow] at hq
      rw [List.cons_append, putAlong_cons p x (List.append_ne_nil_of_right_ne_nil xs hys)]
      split at hq
      · omega
      · rename_i hx
        rw [h.enter_found (Int.not_lt.mp hx), ih hq]

theorem Serves.resolves_iff (h : Serves g d) (hp : 0 ≤ p) :
    Resolves d p xs q ↔ follow (nodes g d) p xs = q ∧ 0 ≤ q := by
  induction xs generalizing p with
  | nil =>
      constructor
      · rintro ⟨⟩
        exact ⟨rfl, hp⟩
      · rintro ⟨rfl, -⟩
        exact .nil p
  | cons x xs ih =>
      constructor
      · intro hr
        cases hr with
        | cons hrun hpos hrest =>
            rw [h.lookup_run] at hrun
            cases hrun
            rw [follow, if_neg (by omega)]
            exact (ih hpos).mp hrest
      · rintro ⟨hf, hq⟩
        rw [follow] at hf
        split at hf
        · omega
        · rename_i hpos
          exact .cons (h.lookup_run p x) (by omega) ((ih (by omega)).mpr ⟨hf, hq⟩)

/-- A walk from the root ends at a node in use, if it does not fail. -/
theorem Sound.bit_of_follow (hs : Sound g v) {i : Nat} (h : follow (v.node g) 0 xs = i) :
    v.inodeBit i = true := by
  rcases List.eq_nil_or_concat xs with rfl | ⟨ys, y, rfl⟩
  · obtain rfl : i = 0 := by
      rw [follow] at h
      omega
    exact hs.root.1
  · rw [List.concat_eq_append, follow_concat] at h
    split at h
    · omega
    · exact hs.bit_of_findName h

/-! ## The walks of `get` and `del` -/

theorem wp_getWalk (h : Holds g d v) (hs : Sound g v) {n : Nat} (hn : path.length ≤ n)
    {Q : Int → Disk → Prop} (hQ : Q (follow (v.node g) p (trimmed path)) d) :
    wp (getWalk n p path) Q d := by
  induction n generalizing p path with
  | zero =>
      rw [List.length_eq_zero_iff.mp (Nat.le_zero.mp hn)] at hQ
      rw [getWalk, wp_pure]
      exact hQ
  | succ n ih =>
      rw [getWalk]
      by_cases hnil : path = []
      · rw [if_pos hnil, wp_pure]
        rw [hnil] at hQ
        exact hQ
      · rw [trimmed_cut hnil, follow] at hQ
        rw [if_neg hnil, wp_bind]
        refine wp_lookup h hs _ _ ?_
        split at hQ
        · rename_i hneg
          rw [if_pos hneg, wp_pure]
          exact hQ
        · rename_i hpos
          rw [if_neg hpos]
          refine ih ?_ hQ
          cases hc : (cut path).2 with
          | none => simp
          | some rest =>
              have := (components_of_cut_some hc).2
              rw [Option.getD_some]
              omega

/-- What the walk of `del` ends with. -/
def delTarget (f : Namespace Nat Bytes Bytes) (p : Int) (xs : List Bytes) :
    Except Thrown (Int × Bytes) :=
  let q := follow f p xs.dropLast
  if 0 ≤ q then .ok (q, xs.getLast?.getD [])
  else if q = -eNotFound then .error (.clientError .notFound)
  else .error (.clientError .badRequest)

theorem delTarget_singleton (hp : 0 ≤ p) (x : Bytes) : delTarget f p [x] = .ok (p, x) := by
  rw [delTarget]
  exact if_pos hp

theorem delTarget_cons (x : Bytes) (hne : xs ≠ []) : delTarget f p (x :: xs) =
    if findName f p x = -eNotFound then .error (.clientError .notFound)
    else if findName f p x < 0 then .error (.clientError .badRequest)
    else delTarget f (findName f p x) xs := by
  simp only [delTarget, List.dropLast_cons_of_ne_nil hne, List.getLast?_cons_of_ne_nil hne, follow]
  by_cases hneg : findName f p x < 0
  · rw [if_pos hneg, if_neg (by omega)]
    by_cases hnf : findName f p x = -eNotFound
    · rw [if_pos hnf, if_pos hnf]
    · rw [if_neg hnf, if_neg hnf, if_pos hneg]
  · have hnf : findName f p x ≠ -eNotFound := by
      simp only [eNotFound]
      omega
    rw [if_neg hneg, if_neg hnf, if_neg hneg]

theorem delTarget_concat (hq : 0 ≤ q) (hxs : follow f p xs = q) (x : Bytes) :
    delTarget f p (xs ++ [x]) = .ok (q, x) := by
  rw [delTarget, List.dropLast_concat, List.getLast?_concat, hxs]
  exact if_pos hq

theorem delTarget_concat_of_neg (hneg : follow f p xs < 0) (x : Bytes) :
    delTarget f p (xs ++ [x]) = .error (.clientError .notFound) ∨
      delTarget f p (xs ++ [x]) = .error (.clientError .badRequest) := by
  rw [delTarget, List.dropLast_concat, if_neg (by omega)]
  split
  · exact .inl rfl
  · exact .inr rfl

theorem wp_delWalk (h : Holds g d v) (hs : Sound g v) {n : Nat} (hn : path.length ≤ n) (hp : 0 ≤ p)
    {Q : Except Thrown (Int × Bytes) → Disk → Prop}
    (hQ : Q (delTarget (v.node g) p (components path)) d) : wp (delWalk n p path) Q d := by
  induction n generalizing p path with
  | zero =>
      have hnil := List.length_eq_zero_iff.mp (Nat.le_zero.mp hn)
      rw [delWalk, wp_pure]
      rwa [hnil, show components [] = [[]] from rfl, delTarget_singleton hp, ← hnil] at hQ
  | succ n ih =>
      rw [delWalk]
      cases hc : (cut path).2 with
      | none =>
          rw [(components_of_cut_none hc).1, delTarget_singleton hp] at hQ
          dsimp only
          rw [wp_pure]
          exact hQ
      | some rest =>
          obtain ⟨hcomp, hlen⟩ := components_of_cut_some hc
          rw [hcomp, delTarget_cons _ (components_ne_nil rest)] at hQ
          dsimp only
          rw [wp_bind]
          refine wp_lookup h hs _ _ ?_
          split at hQ
          · rename_i hnf
            rw [if_pos hnf, wp_pure]
            exact hQ
          · rename_i hnf
            rw [if_neg hnf]
            split at hQ
            · rename_i hneg
              rw [if_pos hneg, wp_pure]
              exact hQ
            · rename_i hpos
              rw [if_neg hpos]
              exact ih (by omega) (by omega) hQ

end Gunrock
