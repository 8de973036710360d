import Gunrock.Marks

/-!
# Reads of one byte

`http_parser_execute` is called with the bytes of a read, and reads can be cut anywhere.  Here is
why that does not matter: a run over the bytes of a read does the same as runs over one byte each
(`Settled.feed_eq`), if the callbacks only put their pieces together (`Collects`).

The pointers into the buffer are what makes this a theorem.  A piece is handed on where it ends, or
where the read ends, and in the latter case it goes on with the next read.  Handing the open pieces
on at each byte is a simulation (`Parser.run_settled`).
-/

namespace Gunrock

/-! ## Handing pieces on at once -/

variable {σ : Type}

/-- Callbacks that put their pieces together: with pieces they return `0` and read nothing of the
parser, two pieces in a row are as good as one, and the url is kept apart from the others. -/
structure Collects (settings : Settings σ) (piece : Piece → Bytes → σ → Option σ)
    (body : Bytes → σ → Option σ) : Prop where
  settings_piece (parser : HttpParser) (obj : σ) (k : Piece) (str : Bytes) :
    settings parser obj (k.event str) = (piece k str obj).map (0, ·)
  settings_body (parser : HttpParser) (obj : σ) (str : Bytes) :
    settings parser obj (.body str) = (body str obj).map (0, ·)
  piece_append (k : Piece) (x y : Bytes) (obj : σ) :
    (piece k x obj).bind (piece k y) = piece k (x ++ y) obj
  url_comm {k : Piece} (hk : k ≠ .url) (x y : Bytes) (obj : σ) :
    (piece .url x obj).bind (piece k y) = (piece k y obj).bind (piece .url x)
  body_append (x y : Bytes) (obj : σ) : (body x obj).bind (body y) = body (x ++ y) obj

variable (piece : Piece → Bytes → σ → Option σ) (data : Bytes)

/-- The object once the piece `k` is handed on, which is open since `mark`. -/
def handOn (p : Nat) (k : Piece) (mark : Option Nat) (obj : σ) : Option σ :=
  match mark with
  | none => some obj
  | some m => piece k (slice data m p) obj

/-- The object once the pieces `ks` that are open at `p` are handed on. -/
def settle (p : Nat) (marks : Piece → Option Nat) : List Piece → σ → Option σ
  | [], obj => some obj
  | k :: ks, obj => (handOn piece data p k (marks k) obj).bind (settle p marks ks)

/-- The marks of the pieces in `o`, at `p` or before it. -/
structure Marked (p : Nat) (o : Open) (marks : Piece → Option Nat) : Prop where
  isSome (k : Piece) : (marks k).isSome = o.has k
  le {k : Piece} {m : Nat} (h : marks k = some m) : m ≤ p

/-- The pieces in `o` go on with the bytes `bs`. -/
def Open.extend (o : Open) (bs : Bytes) (obj : σ) : Option σ :=
  (match o.other with
    | none => some obj
    | some k => piece k bs obj).bind fun obj => if o.url then piece .url bs obj else some obj

section Settle

variable {piece data} {settings : Settings σ} {body : Bytes → σ → Option σ} {p m : Nat} {o o' : Open}
  {marks : Piece → Option Nat} {k : Piece} {obj : σ}

theorem handOn_none : handOn piece data p k none = some := rfl

theorem handOn_some : handOn piece data p k (some m) = piece k (slice data m p) := rfl

theorem Collects.body_cons (hc : Collects settings piece body) (ch : UInt8) (bs : Bytes) (obj : σ) :
    (body [ch] obj).bind (body bs) = body (ch :: bs) obj :=
  hc.body_append [ch] bs obj

theorem slice_self (data : Bytes) (p : Nat) : slice data p p = [] :=
  List.drop_eq_nil_of_le (List.length_take_le p data)

theorem slice_add {count : Nat} (hm : m ≤ p) (hp : p ≤ data.length) :
    slice data m (p + count) = slice data m p ++ (data.drop p).take count := by
  rw [slice, List.take_add, List.drop_append_of_le_length (by simp [hm, hp])]
  rfl

theorem take_one {ch : UInt8} (hch : data[p]? = some ch) : (data.drop p).take 1 = [ch] := by
  obtain ⟨hp, hget⟩ := List.getElem?_eq_some_iff.mp hch
  rw [List.drop_eq_getElem_cons hp, hget]
  rfl

theorem Marked.eq_none (h : Marked p o marks) (hk : o.has k = false) : marks k = none := by
  rw [← Option.not_isSome_iff_eq_none, h.isSome, hk]
  decide

theorem Marked.exists_mark (h : Marked p o marks) (hk : o.has k = true) :
    ∃ m, marks k = some m ∧ m ≤ p := by
  obtain ⟨m, hm⟩ := Option.isSome_iff_exists.mp ((h.isSome k).trans hk)
  exact ⟨m, hm, h.le hm⟩

theorem Marked.settle_of_none (h : Marked p o marks) (ho : o.other = none) :
    settle piece data p marks Piece.all obj = handOn piece data p .url (marks .url) obj := by
  have hone : ∀ k, k ≠ .url → marks k = none := fun k hk => h.eq_none (by simp [Open.has, hk, ho])
  simp [settle, Piece.all, handOn_none, hone]

theorem Marked.settle_of_some (h : Marked p o marks) (ho : o.other = some k) :
    settle piece data p marks Piece.all obj =
      (handOn piece data p k (marks k) obj).bind (handOn piece data p .url (marks .url)) := by
  have hone : ∀ l, l ≠ .url → l ≠ k → marks l = none := fun l hl hlk =>
    h.eq_none (by simp [Open.has, hl, ho, hlk.symm])
  have hk := o.other_ne
  cases k <;> simp [settle, Piece.all, handOn_none, hone, ho] at hk ⊢

/-- What `Open.mark` makes. -/
theorem Open.mark_eq_some (h : o.mark k = some o') :
    (k = .url ∧ o.url = false ∧ o'.url = true ∧ o'.other = o.other) ∨
      (k ≠ .url ∧ o.other = none ∧ o'.url = o.url ∧ o'.other = some k) := by
  unfold Open.mark at h
  split_ifs at h with hk hu ho <;> cases h
  · exact .inl ⟨hk, by simpa using hu, rfl, rfl⟩
  · exact .inr ⟨hk, ho, rfl, rfl⟩

/-- What `Open.close` makes. -/
theorem Open.close_eq_some (h : o.close k = some o') :
    (k = .url ∧ o.url = true ∧ o'.url = false ∧ o'.other = o.other) ∨
      (k ≠ .url ∧ o.other = some k ∧ o'.url = o.url ∧ o'.other = none) := by
  unfold Open.close at h
  split_ifs at h with hk hu ho <;> cases h
  · exact .inl ⟨hk, hu, rfl, rfl⟩
  · exact .inr ⟨hk, ho, rfl, rfl⟩

/-- A mark at `p`, or none, in place of another. -/
theorem Marked.update (h : Marked p o marks) {mark : Option Nat} (hmark : ∀ m, mark = some m → m ≤ p)
    (hk : o'.has k = mark.isSome) (hl : ∀ l, l ≠ k → o'.has l = o.has l) :
    Marked p o' (Function.update marks k mark) := by
  refine ⟨fun l => ?_, fun {l m} hm => ?_⟩
  · by_cases hlk : l = k
    · rw [hlk, Function.update_self, hk]
    · rw [Function.update_of_ne hlk, h.isSome, hl l hlk]
  · by_cases hlk : l = k
    · rw [hlk, Function.update_self] at hm
      exact hmark m hm
    · rw [Function.update_of_ne hlk] at hm
      exact h.le hm

theorem Marked.mark (h : Marked p o marks) (ho : o.mark k = some o') :
    Marked p o' (Function.update marks k (some p)) := by
  refine h.update (fun m hm => (Option.some.inj hm).ge) ?_ fun l hl => ?_
  · rcases Open.mark_eq_some ho with ⟨rfl, -, hu, -⟩ | ⟨hk, -, -, hother⟩
    · simp [Open.has, hu]
    · simp [Open.has, hk, hother]
  · rcases Open.mark_eq_some ho with ⟨rfl, -, -, hother⟩ | ⟨hk, hnone, hu, hother⟩
    · simp [Open.has, hl, hother]
    · simp [Open.has, hu, hother, hnone, hl.symm]

theorem Marked.close (h : Marked p o marks) (ho : o.close k = some o') :
    Marked p o' (Function.update marks k none) := by
  refine h.update (fun m hm => nomatch hm) ?_ fun l hl => ?_
  · rcases Open.close_eq_some ho with ⟨rfl, -, hu, -⟩ | ⟨hk, -, -, hother⟩
    · simp [Open.has, hu]
    · simp [Open.has, hk, hother]
  · rcases Open.close_eq_some ho with ⟨rfl, -, -, hother⟩ | ⟨hk, hsome, hu, hother⟩
    · simp [Open.has, hl, hother]
    · simp [Open.has, hu, hother, hsome, hl.symm]

theorem Marked.settle_mark (hc : Collects settings piece body) (h : Marked p o marks)
    (ho : o.mark k = some o') :
    settle piece data p (Function.update marks k (some p)) Piece.all obj =
      (settle piece data p marks Piece.all obj).bind (piece k []) := by
  have h' := h.mark ho
  rcases Open.mark_eq_some ho with ⟨rfl, hu, -, hother⟩ | ⟨hk, hnone, -, hother⟩
  · have hurl : marks .url = none := h.eq_none (by simp [Open.has, hu])
    cases hl : o.other with
    | none =>
        rw [h'.settle_of_none (hother.trans hl), h.settle_of_none hl, hurl, Function.update_self,
          handOn_some, slice_self]
        rfl
    | some l =>
        have hne : l ≠ .url := fun hne => o.other_ne (hne ▸ hl)
        rw [h'.settle_of_some (hother.trans hl), h.settle_of_some hl, hurl,
          Function.update_of_ne hne, Function.update_self, handOn_some, slice_self, handOn_none,
          Option.bind_fun_some]
  · rw [h'.settle_of_some hother, h.settle_of_none hnone, Function.update_self,
      Function.update_of_ne hk.symm]
    rw [handOn_some, slice_self]
    cases marks .url with
    | none => exact Option.bind_fun_some _
    | some m => exact (hc.url_comm hk _ _ _).symm

variable (data) in
theorem Marked.settle_close (hc : Collects settings piece body) (h : Marked p o marks)
    (ho : o.close k = some o') : ∃ m, marks k = some m ∧ ∀ obj,
      (piece k (slice data m p) obj).bind
        (settle piece data p (Function.update marks k none) Piece.all) =
          settle piece data p marks Piece.all obj := by
  have h' := h.close ho
  rcases Open.close_eq_some ho with ⟨rfl, hu, -, hother⟩ | ⟨hk, hsome, -, hother⟩
  · obtain ⟨m, hm, -⟩ := h.exists_mark (k := .url) (by simp [Open.has, hu])
    refine ⟨m, hm, fun obj => ?_⟩
    cases hl : o.other with
    | none =>
        have hrest : ∀ obj, settle piece data p (Function.update marks .url none) Piece.all obj =
            some obj := fun obj => by
          rw [h'.settle_of_none (hother.trans hl), Function.update_self, handOn_none]
        rw [h.settle_of_none hl, hm, funext hrest]
        exact Option.bind_fun_some _
    | some l =>
        have hne : l ≠ .url := fun hne => o.other_ne (hne ▸ hl)
        have hrest : ∀ obj, settle piece data p (Function.update marks .url none) Piece.all obj =
            handOn piece data p l (marks l) obj := fun obj => by
          rw [h'.settle_of_some (hother.trans hl), Function.update_self,
            Function.update_of_ne hne, handOn_none, Option.bind_fun_some]
        rw [h.settle_of_some hl, hm, funext hrest]
        cases marks l with
        | none => exact Option.bind_fun_some _
        | some n => exact hc.url_comm hne _ _ _
  · obtain ⟨m, hm, -⟩ := h.exists_mark (k := k) (by simp [Open.has, hk, hsome])
    refine ⟨m, hm, fun obj => ?_⟩
    have hrest : ∀ obj, settle piece data p (Function.update marks k none) Piece.all obj =
        handOn piece data p .url (marks .url) obj := fun obj => by
      rw [h'.settle_of_none hother, Function.update_of_ne hk.symm]
    rw [h.settle_of_some hsome, hm, funext hrest]
    rfl

theorem Marked.add (h : Marked p o marks) (count : Nat) : Marked (p + count) o marks :=
  ⟨h.isSome, fun hm => (h.le hm).trans (Nat.le_add_right _ _)⟩

theorem Marked.handOn_add (hc : Collects settings piece body) (h : Marked p o marks)
    (hp : p ≤ data.length) (count : Nat) (obj : σ) :
    handOn piece data (p + count) k (marks k) obj =
      (handOn piece data p k (marks k) obj).bind fun obj =>
        if o.has k then piece k ((data.drop p).take count) obj else some obj := by
  cases hk : o.has k with
  | false =>
      rw [h.eq_none hk]
      rfl
  | true =>
      obtain ⟨m, hm, hle⟩ := h.exists_mark hk
      simp only [hm, handOn, slice_add hle hp, if_true, ← hc.piece_append]

theorem handOn_url_comm (hc : Collects settings piece body) (hk : k ≠ .url) (mark : Option Nat)
    (bs : Bytes) :
    (handOn piece data p .url mark obj).bind (piece k bs) =
      (piece k bs obj).bind (handOn piece data p .url mark) := by
  cases mark with
  | none => exact (Option.bind_fun_some _).symm
  | some m => exact hc.url_comm hk _ _ _

theorem Open.extend_of_none (ho : o.other = none) (bs : Bytes) :
    o.extend piece bs obj = if o.url then piece .url bs obj else some obj := by
  rw [extend, ho]
  rfl

theorem Open.extend_of_some (ho : o.other = some k) (bs : Bytes) :
    o.extend piece bs obj =
      (piece k bs obj).bind fun obj => if o.url then piece .url bs obj else some obj := by
  rw [extend, ho]

theorem Marked.settle_add (hc : Collects settings piece body) (h : Marked p o marks)
    (hp : p ≤ data.length) (count : Nat) :
    settle piece data (p + count) marks Piece.all obj =
      (settle piece data p marks Piece.all obj).bind
        (o.extend piece ((data.drop p).take count)) := by
  have hurl : o.has .url = o.url := rfl
  cases ho : o.other with
  | none =>
      rw [(h.add count).settle_of_none ho, h.settle_of_none ho, h.handOn_add hc hp, hurl]
      exact Option.bind_congr fun obj _ => (Open.extend_of_none ho _).symm
  | some k =>
      have hne : k ≠ .url := fun hne => o.other_ne (hne ▸ ho)
      have hk : o.has k = true := by simp [Open.has, hne, ho]
      have hext : o.extend piece ((data.drop p).take count) = fun obj => _ :=
        funext fun obj => Open.extend_of_some ho _
      rw [(h.add count).settle_of_some ho, h.settle_of_some ho, h.handOn_add hc hp, hext,
        Option.bind_assoc, Option.bind_assoc]
      simp only [hk, if_true]
      refine Option.bind_congr fun obj _ => ?_
      rw [funext (h.handOn_add hc hp count), ← Option.bind_assoc, ← handOn_url_comm hc hne,
        Option.bind_assoc]
      rfl

end Settle

namespace Parser

variable (settings : Settings σ) (body : Bytes → σ → Option σ)

/-- A script for the byte `ch`, on an object that has got what is open. -/
def settled (ch : UInt8) : Step → Open → σ → Option (Parser × σ)
  | .ret (.next parser _), o, obj => (o.extend piece [ch] obj).map (parser, ·)
  | .ret (.stop _ _), _, _ => none
  | .ret (.error _), _, _ => none
  | .ret .crash, _, _ => none
  | .call (.mark k) next, o, obj =>
    (o.mark k).bind fun o => (piece k [] obj).bind (settled ch (next 0) o)
  | .call (.callback _ k) next, o, obj => (o.close k).bind fun o => settled ch (next 0) o obj
  | .call (.notify parser e) next, o, obj =>
    (settings parser.toHttpParser obj e).bind fun out => settled ch (next out.1) o out.2
  | .call (.body _ _) next, o, obj => (body [ch] obj).bind (settled ch (next 0) o)

/-- What is left when the loop goes on after a byte at `p`, with the open pieces handed on. -/
def settleNext (p : Nat) : Next × Working σ → Option (Parser × σ)
  | (.next parser count, w) =>
    (settle piece data (p + count) w.marks Piece.all w.obj).map (parser, ·)
  | _ => none

section Settled

variable {piece data settings body} {p : Nat} {o o' : Open} {ch : UInt8}
  {step : Step} {w w' : Working σ} {k : Piece}

theorem settle_closed (hm : Marked p .closed w.marks) (obj : σ) :
    settle piece data p w.marks Piece.all obj = some obj := by
  rw [hm.settle_of_none rfl, hm.eq_none rfl, handOn_none]

theorem slice_add_eq (data : Bytes) (p n : Nat) : slice data p (p + n) = (data.drop p).take n := by
  rw [slice, List.take_drop]

theorem run_ret (a : Next) :
    ((Script.ret a : Step).run (Action.run settings data p)).run w = some (a, w) := rfl

theorem run_mark (next : Int → Step) :
    ((Script.call (.mark k) next).run (Action.run settings data p)).run w =
      ((next 0).run (Action.run settings data p)).run
        { w with marks := Function.update w.marks k (some p) } := rfl

theorem run_call (op : Action) (next : Int → Step) :
    ((Script.call op next).run (Action.run settings data p)).run w =
      (op.run settings data p w).bind fun out =>
        ((next out.1).run (Action.run settings data p)).run out.2 := rfl

theorem run_callback (hc : Collects settings piece body) {parser : Parser} {m : Nat}
    (hm : w.marks k = some m) (next : Int → Step) :
    ((Script.call (.callback parser k) next).run (Action.run settings data p)).run w =
      (piece k (slice data m p) w.obj).bind fun obj =>
        ((next 0).run (Action.run settings data p)).run
          ⟨obj, Function.update w.marks k none⟩ := by
  have hop : (Action.callback parser k).run settings data p w =
      (piece k (slice data m p) w.obj).map fun obj =>
        (0, ⟨obj, Function.update w.marks k none⟩) := by
    simp only [Action.run, Settings.piece, hm, hc.settings_piece]
    cases piece k (slice data m p) w.obj <;> rfl
  rw [run_call, hop]
  cases piece k (slice data m p) w.obj <;> rfl

theorem run_notify {parser : Parser} {e : HttpEvent} (next : Int → Step) :
    ((Script.call (.notify parser e) next).run (Action.run settings data p)).run w =
      (settings parser.toHttpParser w.obj e).bind fun out =>
        ((next out.1).run (Action.run settings data p)).run { w with obj := out.2 } := by
  have hop : (Action.notify parser e).run settings data p w =
      (settings parser.toHttpParser w.obj e).map fun out => (out.1, { w with obj := out.2 }) := rfl
  rw [run_call, hop]
  cases settings parser.toHttpParser w.obj e <;> rfl

theorem run_callback2 {parser : Parser} {e : HttpEvent} {count : Nat} :
    ((parser.callback2 e count step).run (Action.run settings data p)).run w =
      (settings parser.toHttpParser w.obj e).bind fun out =>
        if out.1 ≠ 0 then some (.stop parser count, { w with obj := out.2 })
        else (step.run (Action.run settings data p)).run { w with obj := out.2 } := by
  rw [callback2, run_notify]
  refine Option.bind_congr fun out _ => ?_
  by_cases hret : out.1 = 0
  · simp [hret]
  · rw [if_pos hret, if_pos hret, run_ret]

theorem run_body (hc : Collects settings piece body) {parser : Parser} {count : Nat}
    (next : Int → Step) :
    ((Script.call (.body parser count) next).run (Action.run settings data p)).run w =
      (body (slice data p (p + count)) w.obj).bind fun obj =>
        ((next 0).run (Action.run settings data p)).run { w with obj := obj } := by
  have hop : (Action.body parser count).run settings data p w =
      (body (slice data p (p + count)) w.obj).map fun obj => (0, { w with obj := obj }) := by
    simp only [Action.run, hc.settings_body]
    cases body (slice data p (p + count)) w.obj <;> rfl
  rw [run_call, hop]
  cases body (slice data p (p + count)) w.obj <;> rfl

theorem settled_callback2 {parser : Parser} {e : HttpEvent} {count : Nat} {obj : σ} :
    settled piece settings body ch (parser.callback2 e count step) o obj =
      (settings parser.toHttpParser obj e).bind fun out =>
        if out.1 ≠ 0 then none else settled piece settings body ch step o out.2 := by
  rw [callback2, settled]
  refine Option.bind_congr fun out _ => ?_
  by_cases hret : out.1 = 0 <;> simp [hret, settled]

/-- How a tidy script ends: with that open what the state says. -/
def Tidied (p : Nat) (marks : Piece → Option Nat) : Next → Prop
  | .next parser count => count = 1 ∧ Marked p parser.state.opens marks
  | .stop _ count => count = 0
  | _ => True

theorem tidied_run (hc : Collects settings piece body) {b : Bool} (ht : Tidy b step o)
    (hm : Marked p o w.marks) {a : Next}
    (h : (step.run (Action.run settings data p)).run w = some (a, w')) : Tidied p w'.marks a := by
  induction step generalizing b o w with
  | ret a' =>
      rw [run_ret] at h
      cases h
      cases a with
      | next parser count => exact ⟨ht.1, ht.2 ▸ hm⟩
      | stop parser count => exact ht.1
      | error parser => trivial
      | crash => trivial
  | call op next ih =>
      cases op with
      | mark k =>
          obtain ⟨o', ho, ht⟩ := ht
          exact ih 0 ht (hm.mark ho) h
      | callback parser k =>
          obtain ⟨o', ho, ht⟩ := ht
          obtain ⟨m, hmark, -⟩ := hm.settle_close data hc ho
          rw [run_callback hc hmark] at h
          obtain ⟨obj, -, h⟩ := Option.bind_eq_some_iff.mp h
          exact ih 0 ht (hm.close ho) h
      | notify parser e =>
          obtain ⟨rfl, ht⟩ := ht
          rw [run_notify] at h
          obtain ⟨out, -, h⟩ := Option.bind_eq_some_iff.mp h
          exact ih out.1 (w := { w with obj := out.2 }) (ht _) hm h
      | body parser count =>
          obtain ⟨rfl, rfl, ht⟩ := ht
          rw [run_body hc] at h
          obtain ⟨obj, -, h⟩ := Option.bind_eq_some_iff.mp h
          exact ih 0 (w := { w with obj := obj }) ht hm h

/-- Handing the open pieces on before a byte or after it comes to the same. -/
theorem run_settled (hc : Collects settings piece body) {b : Bool} (ht : Tidy b step o)
    (hm : Marked p o w.marks) (hch : data[p]? = some ch) :
    ((step.run (Action.run settings data p)).run w).bind (settleNext piece data p) =
      (settle piece data p w.marks Piece.all w.obj).bind (settled piece settings body ch step o) := by
  have hp : p < data.length := (List.getElem?_eq_some_iff.mp hch).1
  induction step generalizing b o w with
  | ret a =>
      rw [run_ret]
      cases a with
      | next parser count =>
          obtain ⟨rfl, rfl⟩ := ht
          simp only [Option.bind_some, settleNext, settled]
          rw [hm.settle_add hc hp.le, take_one hch]
          cases settle piece data p w.marks Piece.all w.obj <;> rfl
      | stop parser count => exact (Option.bind_fun_none _).symm
      | error parser => exact (Option.bind_fun_none _).symm
      | crash => exact (Option.bind_fun_none _).symm
  | call op next ih =>
      cases op with
      | mark k =>
          obtain ⟨o', ho, ht⟩ := ht
          rw [run_mark, ih 0 (w := { w with marks := Function.update w.marks k (some p) }) ht
            (hm.mark ho), hm.settle_mark hc ho, Option.bind_assoc]
          simp only [settled, ho, Option.bind_some]
      | callback parser k =>
          obtain ⟨o', ho, ht⟩ := ht
          obtain ⟨m, hmark, hsettle⟩ := hm.settle_close data hc ho
          rw [run_callback hc hmark, Option.bind_assoc, ← hsettle, Option.bind_assoc]
          refine Option.bind_congr fun obj _ => ?_
          rw [ih 0 ht (hm.close ho)]
          simp only [settled, ho, Option.bind_some]
      | notify parser e =>
          obtain ⟨rfl, ht⟩ := ht
          rw [run_notify, settle_closed hm, Option.bind_assoc, Option.bind_some, settled]
          refine Option.bind_congr fun out _ => ?_
          rw [ih out.1 (w := { w with obj := out.2 }) (ht _) hm, settle_closed hm, Option.bind_some]
      | body parser' count' =>
          obtain ⟨rfl, rfl, ht⟩ := ht
          rw [run_body hc, settle_closed hm, Option.bind_assoc, Option.bind_some, settled,
            slice_add_eq, take_one hch]
          refine Option.bind_congr fun obj _ => ?_
          rw [ih 0 (w := { w with obj := obj }) ht hm, settle_closed hm, Option.bind_some]

end Settled

/-! ## Bytes -/

/-- One byte, when what is open is handed on at once. -/
def byte (s : Parser × σ) (ch : UInt8) : Option (Parser × σ) :=
  settled piece settings body ch (s.1.advance ch 1) s.1.state.opens s.2

/-- The end of a body, if nothing is left of it. -/
def afterBody (parser : Parser) (obj : σ) : Option (Parser × σ) :=
  if parser.contentLength = 0 then
    (settings parser.toHttpParser obj .messageComplete).bind fun out =>
      if out.1 ≠ 0 then none else some (parser.newMessage, out.2)
  else some (parser, obj)

/-- The end of a chunk, if nothing is left of it. -/
def afterChunk (parser : Parser) : Parser :=
  if parser.contentLength = 0 then parser.goto .chunkDataAlmostDone else parser

section Bytes

variable {piece settings body} {parser : Parser} {obj : σ} {ch : UInt8} {bs : Bytes}

theorem advance_of_body (h : parser.state.ofBody = true) (ch : UInt8) (avail : Nat) :
    parser.advance ch avail = parser.step ch avail := by
  have hheader : parser.parsingHeader = false := by
    unfold parsingHeader
    cases hs : parser.state <;> simp_all [ParserState.ofBody, ParserState.ofHeader]
  rw [advance, hheader]
  rfl

/-- Outside a body the number of bytes that are left does not matter. -/
theorem advance_eq (h : parser.state.ofBody = false) (ch : UInt8) (avail : Nat) :
    parser.advance ch avail = parser.advance ch 1 := by
  have hstep : ∀ parser : Parser, parser.state.ofBody = false →
      parser.step ch avail = parser.step ch 1 := by
    intro parser h
    unfold step
    cases hs : parser.state <;> simp_all [ParserState.ofBody]
  simp only [advance, hstep _ h, hstep { parser with nread := parser.nread + 1 } h]

/-- What is left of the content after `count` bytes of it. -/
def consume (parser : Parser) (count : Nat) : Parser :=
  { parser with contentLength := parser.contentLength - count }

theorem bodyIdentity_eq {avail count : Nat}
    (hcount : (min (avail : Int) parser.contentLength).toNat = count)
    (hpos : 0 < count) : parser.bodyIdentity avail = .call (.body parser count) fun _ =>
      if (parser.consume count).contentLength = 0 then
        (parser.consume count).callback2 .messageComplete (count - 1)
          (.ret (.next (parser.consume count).newMessage count))
      else .ret (.next (parser.consume count) count) := by
  subst hcount
  exact if_pos hpos

theorem chunkData_eq {avail count : Nat} (hcount : min (avail : Int) parser.contentLength = count)
    (hpos : 0 < count) (hs : parser.state = .chunkData) :
    parser.chunkData avail = .call (.body parser count) fun _ =>
      .ret (.next (parser.consume count).afterChunk count) := by
  have hafter : (parser.consume count).afterChunk =
      { parser with
        contentLength := parser.contentLength - count
        state := if (count : Int) = parser.contentLength then .chunkDataAlmostDone
          else .chunkData } := by
    unfold afterChunk consume goto
    dsimp only
    split_ifs <;> first | omega | simp only [hs]
  rw [hafter]
  simp only [chunkData, hcount, Int.natCast_pos, if_pos hpos, Int.toNat_natCast]

theorem byte_bodyIdentity (hs : parser.state = .bodyIdentity) (hpos : 0 < parser.contentLength) :
    byte piece settings body (parser, obj) ch =
      (body [ch] obj).bind (afterBody settings (parser.consume 1)) := by
  have hmin : (min ((1 : Nat) : Int) parser.contentLength).toNat = 1 := by omega
  have hbody : parser.state.ofBody = true := by
    rw [hs]
    rfl
  simp only [byte, advance_of_body hbody, step, hs]
  rw [bodyIdentity_eq hmin Nat.one_pos, settled]
  refine Option.bind_congr fun obj _ => ?_
  unfold afterBody
  split
  · exact settled_callback2
  · rfl

theorem byte_bodyIdentityEof (hs : parser.state = .bodyIdentityEof) :
    byte piece settings body (parser, obj) ch = (body [ch] obj).map (parser, ·) := by
  have hbody : parser.state.ofBody = true := by
    rw [hs]
    rfl
  simp only [byte, advance_of_body hbody, step, hs]
  cases h : body [ch] obj with
  | none => simp [bodyIdentityEof, settled, h]
  | some obj => simp [bodyIdentityEof, settled, h]; rfl

theorem byte_chunkData (hs : parser.state = .chunkData) (hflag : parser.flags.chunked = true)
    (hpos : 0 < parser.contentLength) : byte piece settings body (parser, obj) ch =
      (body [ch] obj).map ((parser.consume 1).afterChunk, ·) := by
  have hmin : min ((1 : Nat) : Int) parser.contentLength = (1 : Nat) := by omega
  have hbody : parser.state.ofBody = true := by
    rw [hs]
    rfl
  simp only [byte, advance_of_body hbody, step, hs, ofChunk, hflag,
    if_true]
  rw [chunkData_eq hmin Nat.one_pos hs, settled]
  cases body [ch] obj <;> rfl

theorem consume_consume (parser : Parser) (m n : Nat) :
    (parser.consume m).consume n = parser.consume (m + n) := by
  simp [consume, Int.sub_sub]

/-- The bytes of a body that are there. -/
theorem foldlM_bodyIdentity (hc : Collects settings piece body) (hs : parser.state = .bodyIdentity)
    (hne : bs ≠ []) (hle : (bs.length : Int) ≤ parser.contentLength) :
    bs.foldlM (byte piece settings body) (parser, obj) =
      (body bs obj).bind (afterBody settings (parser.consume bs.length)) := by
  induction bs generalizing parser obj with
  | nil => exact absurd rfl hne
  | cons ch bs ih =>
      rw [List.length_cons] at hle ⊢
      rw [List.foldlM_cons, byte_bodyIdentity hs (by omega)]
      cases bs with
      | nil => exact bind_pure _
      | cons ch' bs =>
          have hmore : ∀ obj, afterBody settings (parser.consume 1) obj =
              some (parser.consume 1, obj) := fun obj => by
            refine if_neg ?_
            rw [List.length_cons] at hle
            dsimp only [consume]
            omega
          have hs' : (parser.consume 1).state = .bodyIdentity := hs
          rw [← hc.body_cons ch (ch' :: bs), Option.bind_assoc, Option.bind_eq_bind, Option.bind_assoc]
          refine Option.bind_congr fun obj _ => ?_
          rw [hmore, Option.bind_some,
            ih hs' (List.cons_ne_nil _ _) (by dsimp only [consume]; omega), consume_consume,
            Nat.add_comm 1]

theorem foldlM_chunkData (hc : Collects settings piece body) (hs : parser.state = .chunkData)
    (hflag : parser.flags.chunked = true) (hne : bs ≠ [])
    (hle : (bs.length : Int) ≤ parser.contentLength) :
    bs.foldlM (byte piece settings body) (parser, obj) =
      (body bs obj).map ((parser.consume bs.length).afterChunk, ·) := by
  induction bs generalizing parser obj with
  | nil => exact absurd rfl hne
  | cons ch bs ih =>
      rw [List.length_cons] at hle ⊢
      rw [List.foldlM_cons, byte_chunkData hs hflag (by omega)]
      cases bs with
      | nil => exact bind_pure _
      | cons ch' bs =>
          have hmore : (parser.consume 1).afterChunk = parser.consume 1 := by
            refine if_neg ?_
            rw [List.length_cons] at hle
            dsimp only [consume]
            omega
          have hs' : (parser.consume 1).state = .chunkData := hs
          rw [← hc.body_cons ch (ch' :: bs), hmore, Option.bind_eq_bind]
          cases body [ch] obj with
          | none => rfl
          | some obj =>
              rw [Option.map_some, Option.bind_some, Option.bind_some,
                ih hs' hflag (List.cons_ne_nil _ _) (by dsimp only [consume]; omega),
                consume_consume, Nat.add_comm 1]

theorem foldlM_bodyIdentityEof (hc : Collects settings piece body)
    (hs : parser.state = .bodyIdentityEof) (hne : bs ≠ []) :
    bs.foldlM (byte piece settings body) (parser, obj) = (body bs obj).map (parser, ·) := by
  induction bs generalizing obj with
  | nil => exact absurd rfl hne
  | cons ch bs ih =>
      rw [List.foldlM_cons, byte_bodyIdentityEof hs]
      cases bs with
      | nil => exact bind_pure _
      | cons ch' bs =>
          rw [← hc.body_cons ch (ch' :: bs), Option.bind_eq_bind]
          cases body [ch] obj with
          | none => rfl
          | some obj => exact ih (List.cons_ne_nil _ _)

end Bytes

/-! ## A read -/

/-- The bytes of a read, if the parser takes them all. -/
def taken : (Nat × Parser) × Working σ → Option (Parser × σ)
  | ((count, parser), w) => if count = data.length then some (parser, w.obj) else none

/-- A round of the loop at `p` is the same as `n` bytes. -/
structure Round (piece : Piece → Bytes → σ → Option σ) (data : Bytes) (settings : Settings σ)
    (body : Bytes → σ → Option σ) (p : Nat) (parser : Parser) (ch : UInt8) (w : Working σ)
    (n : Nat) : Prop where
  pos : 0 < n
  le : p + n ≤ data.length
  next {parser' : Parser} {count : Nat} {w' : Working σ}
    (h : ((parser.advance ch (data.length - p)).run (Action.run settings data p)).run w =
      some (.next parser' count, w')) :
    count = n ∧ Marked (p + n) parser'.state.opens w'.marks
  stop {parser' : Parser} {count : Nat} {w' : Working σ}
    (h : ((parser.advance ch (data.length - p)).run (Action.run settings data p)).run w =
      some (.stop parser' count, w')) : count < n
  eq : (((parser.advance ch (data.length - p)).run (Action.run settings data p)).run w).bind
      (settleNext piece data p) =
    (settle piece data p w.marks Piece.all w.obj).bind fun obj =>
      ((data.drop p).take n).foldlM (byte piece settings body) (parser, obj)

section Read

variable {piece data settings body} {parser entry : Parser} {p n : Nat} {ch : UInt8} {w : Working σ}

theorem round_of_tidy (hc : Collects settings piece body)
    (ht : Tidy false (parser.advance ch (data.length - p)) parser.state.opens)
    (havail : parser.advance ch (data.length - p) = parser.advance ch 1)
    (hm : Marked p parser.state.opens w.marks) (hch : data[p]? = some ch) :
    Round piece data settings body p parser ch w 1 where
  pos := Nat.one_pos
  le := (List.getElem?_eq_some_iff.mp hch).1
  next h := by
    obtain ⟨hcount, hmarked⟩ := tidied_run hc ht hm h
    exact ⟨hcount, hmarked.add 1⟩
  stop h := (tidied_run hc ht hm h).le.trans_lt Nat.one_pos
  eq := by
    rw [run_settled hc ht hm hch, take_one hch]
    refine Option.bind_congr fun obj _ => ?_
    rw [havail, List.foldlM_cons]
    exact (bind_pure _).symm

/-- A round that begins with the bytes of a body. -/
theorem round_of_body (hc : Collects settings piece body)
    (hm : Marked p .closed w.marks) (hn : 0 < n) (hle : p + n ≤ data.length)
    {next : Int → Step}
    (hstep : parser.advance ch (data.length - p) = .call (.body parser n) next)
    (hnext : ∀ obj parser' count w', ((next 0).run (Action.run settings data p)).run ⟨obj, w.marks⟩ =
      some (.next parser' count, w') → count = n ∧ parser'.state.opens = .closed ∧
        w'.marks = w.marks)
    (hstop : ∀ obj parser' count w', ((next 0).run (Action.run settings data p)).run ⟨obj, w.marks⟩ =
      some (.stop parser' count, w') → count < n)
    (heq : ∀ obj bs, bs ≠ [] → bs.length = n →
      bs.foldlM (byte piece settings body) (parser, obj) = (body bs obj).bind fun obj =>
        (((next 0).run (Action.run settings data p)).run ⟨obj, w.marks⟩).bind
          (settleNext piece data p)) :
    Round piece data settings body p parser ch w n where
  pos := hn
  le := hle
  next h := by
    rw [hstep, run_body hc] at h
    obtain ⟨obj, -, h⟩ := Option.bind_eq_some_iff.mp h
    obtain ⟨hcount, hopens, hmarks⟩ := hnext _ _ _ _ h
    rw [hopens, hmarks]
    exact ⟨hcount, hm.add n⟩
  stop h := by
    rw [hstep, run_body hc] at h
    obtain ⟨obj, -, h⟩ := Option.bind_eq_some_iff.mp h
    exact hstop _ _ _ _ h
  eq := by
    have hlen : ((data.drop p).take n).length = n := by
      rw [List.length_take, List.length_drop]
      omega
    rw [hstep, run_body hc, settle_closed hm, Option.bind_some, slice_add_eq, Option.bind_assoc,
      heq _ _ (fun hnil => by rw [hnil] at hlen; exact absurd hlen hn.ne) hlen]

theorem round_bodyIdentity (hc : Collects settings piece body) (hs : parser.state = .bodyIdentity)
    (hm : Marked p parser.state.opens w.marks) (hch : data[p]? = some ch) :
    ∃ n, Round piece data settings body p parser ch w n := by
  have hp : p < data.length := (List.getElem?_eq_some_iff.mp hch).1
  have hopen : parser.state.opens = .closed := by rw [hs]; rfl
  have hadvance : ∀ avail, parser.advance ch avail = parser.bodyIdentity avail := fun avail => by
    rw [advance_of_body (by rw [hs]; rfl), step, hs]
  by_cases hpos : 0 < parser.contentLength
  · obtain ⟨n, hn⟩ : ∃ n, (min ((data.length - p : Nat) : Int) parser.contentLength).toNat = n :=
      ⟨_, rfl⟩
    have hstep := (hadvance (data.length - p)).trans (bodyIdentity_eq hn (by omega))
    have hmarked : Marked p .closed w.marks := hopen ▸ hm
    refine ⟨n, round_of_body hc hmarked (by omega) (by omega) hstep ?_ ?_ ?_⟩
    · intro obj parser' count w' h
      split at h
      · rw [run_callback2] at h
        obtain ⟨out, -, h⟩ := Option.bind_eq_some_iff.mp h
        split at h <;> cases h
        exact ⟨rfl, opens_newMessage _, rfl⟩
      · cases h
        exact ⟨rfl, hopen, rfl⟩
    · intro obj parser' count w' h
      split at h
      · rw [run_callback2] at h
        obtain ⟨out, -, h⟩ := Option.bind_eq_some_iff.mp h
        split at h <;> cases h
        omega
      · cases h
    · intro obj bs hne hlen
      rw [foldlM_bodyIdentity hc hs hne (by omega), hlen]
      refine Option.bind_congr fun obj _ => ?_
      have hclosed : ∀ obj, settle piece data (p + n) w.marks Piece.all obj = some obj :=
        settle_closed (w := w) (hmarked.add n)
      rw [afterBody]
      split
      · rw [run_callback2, Option.bind_assoc]
        refine Option.bind_congr fun out _ => ?_
        split
        · rfl
        · simp only [run_ret, Option.bind_some, settleNext, hclosed, Option.map_some]
      · simp only [run_ret, Option.bind_some, settleNext, hclosed, Option.map_some]
  · have hgoOn : ∀ avail, parser.bodyIdentity avail = parser.goOn := fun avail => if_neg (by omega)
    refine ⟨1, round_of_tidy hc ?_ ?_ hm hch⟩
    · rw [hadvance, hgoOn]
      exact tidy_goOn rfl
    · rw [hadvance, hadvance, hgoOn, hgoOn]

theorem round_bodyIdentityEof (hc : Collects settings piece body)
    (hs : parser.state = .bodyIdentityEof) (hm : Marked p parser.state.opens w.marks)
    (hch : data[p]? = some ch) : ∃ n, Round piece data settings body p parser ch w n := by
  have hp : p < data.length := (List.getElem?_eq_some_iff.mp hch).1
  have hopen : parser.state.opens = .closed := by rw [hs]; rfl
  have hmarked : Marked p .closed w.marks := hopen ▸ hm
  have hstep : parser.advance ch (data.length - p) =
      .call (.body parser (data.length - p)) fun _ =>
        .ret (.next parser (data.length - p)) := by
    rw [advance_of_body (by rw [hs]; rfl), step, hs]
    exact if_pos (by omega)
  refine ⟨data.length - p, round_of_body hc hmarked (by omega) (by omega) hstep ?_ ?_ ?_⟩
  · intro obj parser' count w' h
    cases h
    exact ⟨rfl, hopen, rfl⟩
  · intro obj parser' count w' h
    cases h
  · intro obj bs hne hlen
    have hclosed : ∀ obj, settle piece data (p + (data.length - p)) w.marks Piece.all obj =
        some obj := settle_closed (w := w) (hmarked.add _)
    rw [foldlM_bodyIdentityEof hc hs hne]
    simp only [run_ret, Option.bind_some, settleNext, hclosed, Option.map_some]
    cases body bs obj <;> rfl

theorem round_chunkData (hc : Collects settings piece body) (hs : parser.state = .chunkData)
    (hm : Marked p parser.state.opens w.marks) (hch : data[p]? = some ch) :
    ∃ n, Round piece data settings body p parser ch w n := by
  have hp : p < data.length := (List.getElem?_eq_some_iff.mp hch).1
  have hopen : parser.state.opens = .closed := by rw [hs]; rfl
  have hmarked : Marked p .closed w.marks := hopen ▸ hm
  have hadvance : ∀ avail, parser.advance ch avail = parser.ofChunk (parser.chunkData avail) :=
    fun avail => by rw [advance_of_body (by rw [hs]; rfl), step, hs]
  cases hflag : parser.flags.chunked with
  | false =>
      have hcrash : ∀ avail, parser.advance ch avail = crash := fun avail => by
        rw [hadvance, ofChunk, hflag]
        rfl
      refine ⟨1, round_of_tidy hc ?_ ?_ hm hch⟩
      · rw [hcrash]
        exact tidy_crash
      · rw [hcrash, hcrash]
  | true =>
      have hchunk : ∀ avail, parser.advance ch avail = parser.chunkData avail := fun avail => by
        rw [hadvance, ofChunk, if_pos hflag]
      by_cases hpos : 0 < parser.contentLength
      · obtain ⟨n, hn⟩ : ∃ n : Nat, min ((data.length - p : Nat) : Int) parser.contentLength = n :=
          ⟨(min ((data.length - p : Nat) : Int) parser.contentLength).toNat, by omega⟩
        have hstep := (hchunk (data.length - p)).trans (chunkData_eq hn (by omega) hs)
        have hafter : (parser.consume n).afterChunk.state.opens = .closed := by
          unfold afterChunk
          split
          · rfl
          · exact hopen
        refine ⟨n, round_of_body hc hmarked (by omega) (by omega) hstep ?_ ?_ ?_⟩
        · intro obj parser' count w' h
          cases h
          exact ⟨rfl, hafter, rfl⟩
        · intro obj parser' count w' h
          cases h
        · intro obj bs hne hlen
          have hclosed : ∀ obj, settle piece data (p + n) w.marks Piece.all obj = some obj :=
            settle_closed (w := w) (hmarked.add n)
          rw [foldlM_chunkData hc hs hflag hne (by omega), hlen]
          simp only [run_ret, Option.bind_some, settleNext, hclosed, Option.map_some]
          cases body bs obj <;> rfl
      · -- a size that has overflowed
        have hgoOn : ∀ avail : Nat, 0 < avail → parser.chunkData avail =
            goOn { parser with
              contentLength := parser.contentLength - parser.contentLength
              state := .chunkDataAlmostDone } := by
          intro avail havail
          have hmin : min (avail : Int) parser.contentLength = parser.contentLength := by omega
          simp only [chunkData, hmin, if_neg hpos, if_true]
        refine ⟨1, round_of_tidy hc ?_ ?_ hm hch⟩
        · rw [hchunk, hgoOn _ (by omega)]
          exact tidy_goOn (by rw [hopen]; rfl)
        · rw [hchunk, hchunk, hgoOn _ (by omega), hgoOn _ Nat.one_pos]

theorem exists_round (hc : Collects settings piece body)
    (hm : Marked p parser.state.opens w.marks) (hch : data[p]? = some ch) :
    ∃ n, Round piece data settings body p parser ch w n := by
  by_cases hs : parser.state.ofBody = true
  · cases hstate : parser.state with
    | bodyIdentity => exact round_bodyIdentity hc hstate hm hch
    | bodyIdentityEof => exact round_bodyIdentityEof hc hstate hm hch
    | chunkData => exact round_chunkData hc hstate hm hch
    | _ =>
        rw [hstate] at hs
        cases hs
  · rw [Bool.not_eq_true] at hs
    exact ⟨1, round_of_tidy hc (tidy_advance (.inl hs)) (advance_eq hs _ _) hm hch⟩

theorem run_piece (hc : Collects settings piece body) (k : Piece) :
    settings.piece data parser p k w =
      (handOn piece data p k (w.marks k) w.obj).map fun obj => (0, { w with obj := obj }) := by
  rw [Settings.piece]
  cases hk : w.marks k with
  | none => rfl
  | some m =>
      simp only [hc.settings_piece, handOn_some]
      cases piece k (slice data m p) w.obj <;> rfl

theorem finish_cons (hc : Collects settings piece body) (k : Piece) (ks : List Piece) :
    (entry.finish settings data parser (k :: ks)).run w =
      (handOn piece data data.length k (w.marks k) w.obj).bind fun obj =>
        (entry.finish settings data parser ks).run { w with obj := obj } := by
  have hrun : (entry.finish settings data parser (k :: ks)).run w =
      (settings.piece data parser data.length k w).bind fun out =>
        (if out.1 ≠ 0 then pure (data.length, entry.abandon parser)
        else entry.finish settings data parser ks : StateT (Working σ) Option _).run out.2 := rfl
  rw [hrun, run_piece hc]
  cases handOn piece data data.length k (w.marks k) w.obj <;> rfl

/-- The end of a read. -/
theorem finish_run (hc : Collects settings piece body) (ks : List Piece) :
    ((entry.finish settings data parser ks).run w).bind (taken data) =
      (settle piece data data.length w.marks ks w.obj).map (parser, ·) := by
  induction ks generalizing w with
  | nil => exact if_pos rfl
  | cons k ks ih =>
      rw [finish_cons hc, settle]
      cases handOn piece data data.length k (w.marks k) w.obj with
      | none => rfl
      | some obj => exact ih (w := { w with obj := obj })

theorem loop_end (h : data[p]? = none) : entry.loop settings data n parser p =
    entry.finish settings data parser Piece.all := by
  cases n with
  | zero => rfl
  | succ n => rw [loop, h]

theorem loop_succ (h : data[p]? = some ch) : (entry.loop settings data (n + 1) parser p).run w =
    (((parser.advance ch (data.length - p)).run (Action.run settings data p)).run w).bind
      fun out => (match out.1 with
        | .next parser count => entry.loop settings data n parser (p + count)
        | .stop parser count => pure (p + count, entry.abandon parser)
        | .error parser => pure (p, { entry.abandon parser with state := .dead })
        | .crash => failure : StateT (Working σ) Option _).run out.2 := by
  rw [loop, h]
  rfl

/-- The loop does what the bytes that are left do one by one. -/
theorem loop_run (hc : Collects settings piece body) (hn : data.length ≤ p + n)
    (hp : p ≤ data.length) (hm : Marked p parser.state.opens w.marks) :
    ((entry.loop settings data n parser p).run w).bind (taken data) =
      (settle piece data p w.marks Piece.all w.obj).bind fun obj =>
        (data.drop p).foldlM (byte piece settings body) (parser, obj) := by
  induction n generalizing parser p w with
  | zero =>
      obtain rfl : p = data.length := by omega
      rw [loop, finish_run hc, List.drop_length]
      cases settle piece data data.length w.marks Piece.all w.obj <;> rfl
  | succ n ih =>
      cases hch : data[p]? with
      | none =>
          obtain rfl : p = data.length := by
            have := List.getElem?_eq_none_iff.mp hch
            omega
          rw [loop_end hch, finish_run hc, List.drop_length]
          cases settle piece data data.length w.marks Piece.all w.obj <;> rfl
      | some ch =>
          obtain ⟨count, hround⟩ := exists_round hc hm hch
          have hsplit : ∀ obj, (data.drop p).foldlM (byte piece settings body) (parser, obj) =
              (((data.drop p).take count).foldlM (byte piece settings body) (parser, obj)).bind
                ((data.drop (p + count)).foldlM (byte piece settings body)) := by
            intro obj
            conv_lhs => rw [← List.take_append_drop count (data.drop p), List.foldlM_append]
            rw [List.drop_drop]
            rfl
          simp only [hsplit]
          rw [← Option.bind_assoc, ← hround.eq, loop_succ hch, Option.bind_assoc, Option.bind_assoc]
          refine Option.bind_congr fun out hout => ?_
          obtain ⟨a, w'⟩ := out
          cases a with
          | next parser' count' =>
              obtain ⟨rfl, hmarked⟩ := hround.next hout
              have hpos := hround.pos
              have hle := hround.le
              rw [settleNext, Option.bind_map]
              exact ih (by omega) hle hmarked
          | stop parser' count' =>
              have hlt := hround.stop hout
              have hle := hround.le
              exact if_neg (by omega)
          | error parser' =>
              have hpos := hround.pos
              have hle := hround.le
              exact if_neg (by omega)
          | crash => rfl

theorem finish_count (hc : Collects settings piece body) {ks : List Piece} {count : Nat}
    {parser' : Parser} {w' : Working σ}
    (h : (entry.finish settings data parser ks).run w = some ((count, parser'), w')) :
    count = data.length := by
  induction ks generalizing w with
  | nil =>
      cases h
      rfl
  | cons k ks ih =>
      rw [finish_cons hc] at h
      obtain ⟨obj, -, h⟩ := Option.bind_eq_some_iff.mp h
      exact ih (w := { w with obj := obj }) h

/-- No more bytes are taken than there are. -/
theorem loop_le (hc : Collects settings piece body) (hp : p ≤ data.length)
    (hm : Marked p parser.state.opens w.marks) {count : Nat} {parser' : Parser} {w' : Working σ}
    (h : (entry.loop settings data n parser p).run w = some ((count, parser'), w')) :
    count ≤ data.length := by
  induction n generalizing parser p w with
  | zero => exact (finish_count hc h).le
  | succ n ih =>
      cases hch : data[p]? with
      | none =>
          rw [loop_end hch] at h
          exact (finish_count hc h).le
      | some ch =>
          obtain ⟨count₁, hround⟩ := exists_round hc hm hch
          rw [loop_succ hch] at h
          obtain ⟨⟨a, w₁⟩, hrun, h⟩ := Option.bind_eq_some_iff.mp h
          cases a with
          | next parser₁ count₂ =>
              obtain ⟨rfl, hmarked⟩ := hround.next hrun
              exact ih hround.le hmarked h
          | stop parser₁ count₂ =>
              cases h
              have hlt := hround.stop hrun
              have hle := hround.le
              omega
          | error parser₁ =>
              cases h
              exact hp
          | crash => cases h

end Read

end Parser

/-! ## Reads -/

/-- The parser and the object after a read; nothing, if not all of its bytes are taken. -/
def feed (settings : Settings σ) (data : Bytes) (s : Parser × σ) : Option (Parser × σ) :=
  (s.1.execute settings data s.2).bind fun out => if out.1 = data.length then some out.2 else none

/-- The object has got what is open. -/
def Settled (piece : Piece → Bytes → σ → Option σ) (s : Parser × σ) : Prop :=
  ∀ k, s.1.state.opens.has k = true → piece k [] s.2 = some s.2

/-- The marks at the beginning of a read. -/
theorem ParserState.marked_marks (state : ParserState) : Marked 0 state.opens state.marks := by
  refine ⟨fun k => ?_, fun {k m} hk => ?_⟩
  · rw [marks, state.marked_eq]
    cases state.opens.has k <;> rfl
  · rw [marks] at hk
    split at hk <;> cases hk
    exact Nat.le_refl 0

section Feed

variable {piece data} {settings : Settings σ} {body : Bytes → σ → Option σ} {s s' : Parser × σ}
  {bs : Bytes}

/-- What has got some bytes has got what is open. -/
theorem Open.piece_extend (hc : Collects settings piece body) {o : Open} {obj obj' : σ} {k : Piece}
    (h : o.extend piece bs obj = some obj') (hk : o.has k = true) : piece k [] obj' = some obj' := by
  have hself : ∀ l obj₁ obj₂, piece l bs obj₁ = some obj₂ → piece l [] obj₂ = some obj₂ := by
    intro l obj₁ obj₂ hl
    have happ := hc.piece_append l bs [] obj₁
    rwa [hl, Option.bind_some, List.append_nil, hl] at happ
  obtain ⟨obj₁, hother, hurl⟩ := Option.bind_eq_some_iff.mp h
  by_cases hku : k = .url
  · subst hku
    rw [if_pos (show o.url = true from hk)] at hurl
    exact hself _ _ _ hurl
  · have ho : o.other = some k := by simpa [Open.has, hku] using hk
    rw [ho] at hother
    have hk₁ := hself _ _ _ hother
    split at hurl
    · -- the url comes after `k`, and does not touch it
      have hcomm := hc.url_comm hku bs [] obj₁
      rwa [hurl, hk₁, Option.bind_some, Option.bind_some, hurl] at hcomm
    · cases hurl
      exact hk₁

theorem Parser.settled_settled (hc : Collects settings piece body) {step : Step} {o : Open}
    {b : Bool} (ht : Tidy b step o) {ch : UInt8} {obj : σ}
    (h : settled piece settings body ch step o obj = some s') : Settled piece s' := by
  induction step generalizing b o obj with
  | ret a =>
      cases a with
      | next parser count =>
          obtain ⟨obj', hext, rfl⟩ := Option.map_eq_some_iff.mp h
          intro k hk
          exact Open.piece_extend hc (ht.2 ▸ hext) hk
      | stop parser count => cases h
      | error parser => cases h
      | crash => cases h
  | call op next ih =>
      cases op with
      | mark k =>
          obtain ⟨o', ho, ht⟩ := ht
          rw [settled, ho, Option.bind_some] at h
          obtain ⟨obj', -, h⟩ := Option.bind_eq_some_iff.mp h
          exact ih 0 ht h
      | callback parser k =>
          obtain ⟨o', ho, ht⟩ := ht
          rw [settled, ho, Option.bind_some] at h
          exact ih 0 ht h
      | notify parser e =>
          obtain ⟨out, -, h⟩ := Option.bind_eq_some_iff.mp h
          exact ih out.1 (ht.2 _) h
      | body parser count =>
          obtain ⟨obj', -, h⟩ := Option.bind_eq_some_iff.mp h
          exact ih 0 ht.2.2 h

theorem settled_byte (hc : Collects settings piece body) {ch : UInt8}
    (h : Parser.byte piece settings body s ch = some s') : Settled piece s' :=
  Parser.settled_settled hc (Parser.tidy_advance (b := false) (.inr rfl)) h

theorem Settled.foldlM (hs : Settled piece s) (hc : Collects settings piece body)
    (h : bs.foldlM (Parser.byte piece settings body) s = some s') : Settled piece s' := by
  induction bs generalizing s with
  | nil =>
      cases h
      exact hs
  | cons ch bs ih =>
      obtain ⟨s₁, hbyte, h⟩ := Option.bind_eq_some_iff.mp h
      exact ih (settled_byte hc hbyte) h

/-- A read is its bytes, one by one. -/
theorem Settled.feed_eq (h : Settled piece s) (hc : Collects settings piece body)
    (hne : data ≠ []) : feed settings data s =
      data.foldlM (Parser.byte piece settings body) s := by
  obtain ⟨parser, obj⟩ := s
  have hm := parser.state.marked_marks
  have hone : ∀ k, handOn piece data 0 k (parser.state.marks k) obj = some obj := by
    intro k
    rw [ParserState.marks, parser.state.marked_eq]
    cases hk : parser.state.opens.has k with
    | false => rfl
    | true => exact (congrArg (piece k · obj) (slice_self data 0)).trans (h k hk)
  have hsettle : settle piece data 0 parser.state.marks Piece.all obj = some obj := by
    cases ho : parser.state.opens.other with
    | none => rw [hm.settle_of_none ho, hone]
    | some k => rw [hm.settle_of_some ho, hone, Option.bind_some, hone]
  have hrun : feed settings data (parser, obj) =
      ((parser.loop settings data data.length parser 0).run ⟨obj, parser.state.marks⟩).bind
        (Parser.taken data) := by
    rw [feed, Parser.execute, if_neg hne]
    cases (parser.loop settings data data.length parser 0).run ⟨obj, parser.state.marks⟩ <;> rfl
  rw [hrun, Parser.loop_run hc (Nat.le_add_left _ _) (Nat.zero_le _) hm, hsettle]
  rfl

/-- Where a read is cut in two does not matter. -/
theorem Settled.feed_append (h : Settled piece s) (hc : Collects settings piece body)
    {data' : Bytes} (hne : data ≠ []) (hne' : data' ≠ []) :
    feed settings (data ++ data') s = (feed settings data s).bind (feed settings data') := by
  rw [h.feed_eq hc hne, h.feed_eq hc (List.append_ne_nil_of_left_ne_nil hne _), List.foldlM_append]
  refine Option.bind_congr fun s' hs' => ?_
  exact ((h.foldlM hc hs').feed_eq hc hne').symm

end Feed

/-! ## Reads that are not taken -/

/-- Callbacks under which an object keeps `P`, and is `D` once the message is complete: as long as
it is not, they return `0`. -/
structure Ends (settings : Settings σ) (P D : σ → Prop) : Prop where
  keeps {parser : HttpParser} {obj obj' : σ} {e : HttpEvent} {ret : Int} (hP : P obj)
    (h : settings parser obj e = some (ret, obj')) : P obj' ∧ (D obj → D obj')
  complete {parser : HttpParser} {obj obj' : σ} {ret : Int} (hP : P obj)
    (h : settings parser obj .messageComplete = some (ret, obj')) : D obj'
  nonzero {parser : HttpParser} {obj obj' : σ} {e : HttpEvent} {ret : Int} (hP : P obj)
    (h : settings parser obj e = some (ret, obj')) (hret : ret ≠ 0) : D obj'

/-- A complete message stays complete. -/
theorem Ends.and {settings : Settings σ} {P D : σ → Prop} (he : Ends settings P D) :
    Ends settings (fun obj => P obj ∧ D obj) D where
  keeps hP h := ⟨⟨(he.keeps hP.1 h).1, (he.keeps hP.1 h).2 hP.2⟩, (he.keeps hP.1 h).2⟩
  complete hP h := he.complete hP.1 h
  nonzero hP h := he.nonzero hP.1 h

namespace Parser

section Ends

variable {piece data} {settings : Settings σ} {body : Bytes → σ → Option σ} {P D : σ → Prop}
  {p n : Nat} {step : Step} {w w' : Working σ} {parser parser' entry : Parser} {obj obj' : σ}

/-- How a run ends: `P` is kept, and if the run has been stopped, the message is complete. -/
structure Ended (P D : σ → Prop) (obj obj' : σ) (stopped : Prop) : Prop where
  keeps : P obj'
  stays : D obj → D obj'
  done : stopped → D obj'

theorem Ended.trans {stopped : Prop} {obj₁ : σ} (h : Ended P D obj obj₁ False)
    (h' : Ended P D obj₁ obj' stopped) : Ended P D obj obj' stopped :=
  ⟨h'.keeps, h'.stays ∘ h.stays, h'.done⟩

theorem ends_handOn (hc : Collects settings piece body) (he : Ends settings P D)
    (parser : HttpParser) (hP : P obj) {k : Piece} {mark : Option Nat}
    (h : handOn piece data p k mark obj = some obj') :
    Ended P D obj obj' False := by
  cases mark with
  | none =>
      cases h
      exact ⟨hP, id, False.elim⟩
  | some m =>
      have hcall := hc.settings_piece parser obj k (slice data m p)
      rw [show piece k (slice data m p) obj = some obj' from h] at hcall
      obtain ⟨hP', hD⟩ := he.keeps hP hcall
      exact ⟨hP', hD, False.elim⟩

theorem ends_run (hc : Collects settings piece body) (he : Ends settings P D) {b : Bool}
    (hs : Stops b step) (hP : P w.obj) (hb : b = true → D w.obj) {a : Next}
    (h : (step.run (Action.run settings data p)).run w = some (a, w')) :
    Ended P D w.obj w'.obj (∃ parser count, a = .stop parser count) := by
  induction step generalizing b w with
  | ret a' =>
      cases h
      refine ⟨hP, id, ?_⟩
      rintro ⟨parser, count, rfl⟩
      exact hb hs
  | call op next ih =>
      cases op with
      | mark k =>
          rw [run_mark] at h
          exact ih 0 (w := { w with marks := Function.update w.marks k (some p) }) hs hP hb h
      | callback parser k =>
          have hrun : (Action.callback parser k).run settings data p w =
              (handOn piece data p k (w.marks k) w.obj).map fun obj =>
                (0, ⟨obj, Function.update w.marks k none⟩) := by
            simp only [Action.run, run_piece hc]
            cases handOn piece data p k (w.marks k) w.obj <;> rfl
          rw [run_call, hrun, Option.bind_map] at h
          obtain ⟨obj, hobj, h⟩ := Option.bind_eq_some_iff.mp h
          have hcall := ends_handOn hc he parser.toHttpParser hP hobj
          exact hcall.trans (ih 0 (w := ⟨obj, _⟩) hs hcall.keeps (hcall.stays ∘ hb) h)
      | notify parser e =>
          rw [run_notify] at h
          obtain ⟨out, hout, h⟩ := Option.bind_eq_some_iff.mp h
          obtain ⟨hP', hD⟩ := he.keeps hP hout
          have hcall : Ended P D w.obj out.2 False := ⟨hP', hD, False.elim⟩
          refine hcall.trans (ih out.1 (w := { w with obj := out.2 }) (hs out.1) hP' ?_ h)
          intro hdone
          simp only [Bool.or_eq_true, decide_eq_true_eq] at hdone
          rcases hdone with (hdone | hret) | rfl
          · exact hD (hb hdone)
          · exact he.nonzero hP hout hret
          · exact he.complete hP hout
      | body parser count =>
          rw [run_body hc] at h
          obtain ⟨obj, hobj, h⟩ := Option.bind_eq_some_iff.mp h
          have hcall := hc.settings_body parser.toHttpParser w.obj (slice data p (p + count))
          rw [hobj] at hcall
          obtain ⟨hP', hD⟩ := he.keeps hP hcall
          have hcall : Ended P D w.obj obj False := ⟨hP', hD, False.elim⟩
          exact hcall.trans (ih 0 (w := { w with obj := obj }) hs hP' (hD ∘ hb) h)

/-- What the callbacks keep, a byte keeps. -/
theorem keeps_settled (hc : Collects settings piece body) (he : Ends settings P D) {o : Open}
    {ch : UInt8} (hP : P obj)
    (h : settled piece settings body ch step o obj = some (parser', obj')) : P obj' := by
  have hpiece : ∀ k bs obj obj', P obj → piece k bs obj = some obj' → P obj' :=
    fun k bs obj obj' hP h => (he.keeps hP ((hc.settings_piece parser'.toHttpParser obj k bs).trans
      (congrArg (Option.map _) h))).1
  induction step generalizing o obj with
  | ret a =>
      cases a with
      | next parser count =>
          obtain ⟨obj₂, hext, hout⟩ := Option.map_eq_some_iff.mp h
          cases hout
          obtain ⟨obj₁, hother, hurl⟩ := Option.bind_eq_some_iff.mp hext
          have hP₁ : P obj₁ := by
            cases ho : o.other with
            | none =>
                rw [ho] at hother
                cases hother
                exact hP
            | some k =>
                rw [ho] at hother
                exact hpiece k _ _ _ hP hother
          split at hurl
          · exact hpiece .url _ _ _ hP₁ hurl
          · cases hurl
            exact hP₁
      | stop parser count => cases h
      | error parser => cases h
      | crash => cases h
  | call op next ih =>
      cases op with
      | mark k =>
          obtain ⟨o', -, h⟩ := Option.bind_eq_some_iff.mp h
          obtain ⟨obj₁, hobj, h⟩ := Option.bind_eq_some_iff.mp h
          exact ih 0 (hpiece k _ _ _ hP hobj) h
      | callback parser k =>
          obtain ⟨o', -, h⟩ := Option.bind_eq_some_iff.mp h
          exact ih 0 hP h
      | notify parser e =>
          obtain ⟨out, hout, h⟩ := Option.bind_eq_some_iff.mp h
          exact ih out.1 (he.keeps hP hout).1 h
      | body parser count =>
          obtain ⟨obj₁, hobj, h⟩ := Option.bind_eq_some_iff.mp h
          have hcall := (hc.settings_body parser.toHttpParser obj [ch]).trans
            (congrArg (Option.map _) hobj)
          exact ih 0 (he.keeps hP hcall).1 h

theorem keeps_byte (hc : Collects settings piece body) (he : Ends settings P D)
    {s s' : Parser × σ} {ch : UInt8} (hP : P s.2)
    (h : byte piece settings body s ch = some s') : P s'.2 := keeps_settled hc he hP h

theorem ends_finish (hc : Collects settings piece body) (he : Ends settings P D) {ks : List Piece}
    {count : Nat} (hP : P w.obj)
    (h : (entry.finish settings data parser ks).run w = some ((count, parser'), w')) :
    count = data.length ∧ Ended P D w.obj w'.obj False := by
  induction ks generalizing w with
  | nil =>
      cases h
      exact ⟨rfl, hP, id, False.elim⟩
  | cons k ks ih =>
      rw [finish_cons hc] at h
      obtain ⟨obj, hobj, h⟩ := Option.bind_eq_some_iff.mp h
      have hcall := ends_handOn hc he parser.toHttpParser hP hobj
      obtain ⟨hcount, hend⟩ := ih (w := { w with obj := obj }) hcall.keeps h
      exact ⟨hcount, hcall.trans hend⟩

/-- A run that does not take all bytes leaves a dead parser behind, or a complete message. -/
theorem ends_loop (hc : Collects settings piece body) (he : Ends settings P D) {count : Nat}
    (hP : P w.obj)
    (h : (entry.loop settings data n parser p).run w = some ((count, parser'), w')) :
    Ended P D w.obj w'.obj (count ≠ data.length ∧ parser'.state ≠ .dead) := by
  have hfinish : ∀ parser w, P w.obj →
      (entry.finish settings data parser Piece.all).run w = some ((count, parser'), w') →
        Ended P D w.obj w'.obj (count ≠ data.length ∧ parser'.state ≠ .dead) := by
    intro parser w hP h
    obtain ⟨rfl, hend⟩ := ends_finish hc he hP h
    exact ⟨hend.keeps, hend.stays, fun hne => absurd rfl hne.1⟩
  induction n generalizing parser p w with
  | zero => exact hfinish _ _ hP h
  | succ n ih =>
      cases hch : data[p]? with
      | none =>
          rw [loop_end hch] at h
          exact hfinish _ _ hP h
      | some ch =>
          rw [loop_succ hch] at h
          obtain ⟨⟨a, w₁⟩, hrun, h⟩ := Option.bind_eq_some_iff.mp h
          have hround := ends_run hc he (b := false) (stops_advance _ _ _) hP nofun hrun
          have hround' : Ended P D w.obj w₁.obj False := ⟨hround.keeps, hround.stays, False.elim⟩
          cases a with
          | next parser₁ count₁ =>
              exact hround'.trans (ih hround.keeps h)
          | stop parser₁ count₁ =>
              cases h
              exact ⟨hround.keeps, hround.stays, fun _ => hround.done ⟨_, _, rfl⟩⟩
          | error parser₁ =>
              cases h
              exact ⟨hround.keeps, hround.stays, fun hne => absurd rfl hne.2⟩
          | crash => cases h

theorem execute_le (hc : Collects settings piece body) {count : Nat}
    (h : parser.execute settings data obj = some (count, parser', obj')) : count ≤ data.length := by
  rw [execute] at h
  split at h
  · rename_i hnil
    subst hnil
    split at h
    · obtain ⟨out, -, hout⟩ := Option.map_eq_some_iff.mp h
      cases hout
      exact Nat.le_refl 0
    · cases h
      exact Nat.le_refl 0
  · obtain ⟨⟨⟨count, parser'⟩, w'⟩, hrun, hout⟩ := Option.map_eq_some_iff.mp h
    cases hout
    exact loop_le hc (Nat.zero_le _) (w := ⟨obj, _⟩) parser.state.marked_marks hrun

/-- What becomes of the object in a read. -/
theorem ends_execute (hc : Collects settings piece body) (he : Ends settings P D) {count : Nat}
    (hne : data ≠ []) (hP : P obj)
    (h : parser.execute settings data obj = some (count, parser', obj')) :
    Ended P D obj obj' (count ≠ data.length ∧ parser'.state ≠ .dead) := by
  rw [execute, if_neg hne] at h
  obtain ⟨⟨⟨count, parser'⟩, w'⟩, hrun, hout⟩ := Option.map_eq_some_iff.mp h
  cases hout
  exact ends_loop hc he (w := ⟨obj, parser.state.marks⟩) hP hrun

/-- After an error no byte is taken. -/
theorem execute_dead (hs : parser.state = .dead) (hne : data ≠ []) :
    ∃ parser', parser.execute settings data obj = some (0, parser', obj) := by
  obtain ⟨ch, bs, rfl⟩ := List.exists_cons_of_ne_nil hne
  have herror : ∃ parser', parser.advance ch ((ch :: bs).length - 0) = .ret (.error parser') := by
    simp only [advance, step, hs]
    split
    · split <;> exact ⟨_, rfl⟩
    · exact ⟨_, rfl⟩
  obtain ⟨parser', hadvance⟩ := herror
  refine ⟨{ parser.abandon parser' with state := .dead }, ?_⟩
  rw [execute, if_neg hne, List.length_cons, loop_succ rfl, hadvance]
  rfl

end Ends

end Parser

end Gunrock
