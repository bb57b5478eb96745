import Tlv.Refusal

/-!
# The language of the decoder

`Parses bs out` is a grammar for every buffer there is: whole frames, and behind them
nothing, a last frame that declares more bytes than there are, or the place where the
decoder stops. It speaks of bytes only, and of no offset, loop or heap. A value may lie
outside its frame: the tag says how wide it is, and the length field where the next
frame starts.

Result: each buffer parses in one way, and with any allocator and on any heap a call of
`deserialize` comes to an outcome, which is the one of the grammar unless an allocation
was refused (`deserialize_follows`).
-/

namespace Tlv
open Lib

variable {h : Host} {A : Allocator} {bs pre body : List Byte} {tag : Byte} {n : Nat}
  {t : TypeTag} {vs : List View} {out : Except Fault (List View)} {heap : Heap}

/-- A tag and a length field. -/
def headerBytes (tag : Byte) (n : Nat) : List Byte := tag :: beBytes 4 n

/-- The frames that the decoder takes from a buffer, or the fault at the first one that
it cannot take. -/
inductive Parses : List Byte → Except Fault (List View) → Prop
  | done : Parses [] (.ok [])
  | frame {f : Frame} {rest : List Byte} {out : Except Fault (List View)} :
      f.type.width f.body.length ≤ f.body.length + rest.length → Parses rest out →
      Parses (f.bytes ++ rest) (out.map (f.view rest :: ·))
  /-- The last frame is not whole, but its value is there. -/
  | overhang {t : TypeTag} {n : Nat} {body : List Byte} :
      n < 2 ^ 32 → body.length < n → t.width n ≤ body.length →
      Parses (headerBytes t.toByte n ++ body) (.ok [⟨t, n, body.take (t.width n)⟩])
  | cutHeader {bs : List Byte} :
      bs ≠ [] → bs.length < 5 → Parses bs (.error .readPastEnd)
  | unknown {tag : Byte} {n : Nat} {body : List Byte} :
      n < 2 ^ 32 → TypeTag.ofByte tag = none →
      Parses (headerBytes tag n ++ body) (.error (.badType tag))
  /-- Whether the frame is whole or not. -/
  | cutValue {t : TypeTag} {n : Nat} {body : List Byte} :
      n < 2 ^ 32 → body.length < t.width n →
      Parses (headerBytes t.toByte n ++ body) (.error .readPastEnd)

/-! ## One header -/

@[simp] theorem length_headerBytes (tag : Byte) (n : Nat) : (headerBytes tag n).length = 5 := by
  simp [headerBytes]

theorem headerBytes_append_ne (tag : Byte) (n : Nat) (body : List Byte) :
    headerBytes tag n ++ body ≠ [] := List.cons_ne_nil _ _

/-- Five bytes are a header. -/
theorem exists_headerBytes (hlen : 5 ≤ bs.length) :
    ∃ tag n body, n < 2 ^ 32 ∧ bs = headerBytes tag n ++ body := by
  cases bs with
  | nil => exact absurd hlen (by decide)
  | cons tag tail =>
    have hfour : (tail.take 4).length = 4 := by
      rw [List.length_take]
      exact Nat.min_eq_left (Nat.le_of_succ_le_succ hlen)
    refine ⟨tag, beNat (tail.take 4), tail.drop 4, ?_, ?_⟩
    · have hlt := beNat_lt (tail.take 4)
      rwa [hfour] at hlt
    · have hbytes := beBytes_beNat (tail.take 4)
      rw [hfour] at hbytes
      rw [headerBytes, hbytes, List.cons_append, List.take_append_drop]

theorem headerAt_headerBytes (hn : n < 2 ^ 32) (tag : Byte) (body : List Byte) :
    headerAt (Mem.ofList (headerBytes tag n ++ body)) 0 = some (tag, n) := by
  refine headerAt_eq_some_iff.mpr ⟨rfl, beBytes 4 n, ?_, beNat_beBytes_of_lt hn⟩
  rw [Mem.read_ofList (by simp [headerBytes])]
  show some (List.take 4 (beBytes 4 n ++ body)) = _
  rw [List.take_left' (length_beBytes 4 n)]

theorem drop_headerBytes (tag : Byte) (n : Nat) (body : List Byte) :
    (headerBytes tag n ++ body).drop (0 + 5) = body :=
  List.drop_left' (length_headerBytes tag n)

/-- A header with as many bytes behind it as it declares begins with a frame. -/
theorem exists_frame (t : TypeTag) (hn : n < 2 ^ 32) (hbody : n ≤ body.length) :
    ∃ (f : Frame) (rest : List Byte), f.type = t ∧ f.body.length = n ∧
      headerBytes t.toByte n ++ body = f.bytes ++ rest ∧ n + rest.length = body.length := by
  have htake : (body.take n).length = n := by
    rw [List.length_take]
    exact Nat.min_eq_left hbody
  refine ⟨⟨t, body.take n, htake.symm ▸ hn⟩, body.drop n, rfl, htake, ?_, ?_⟩
  · show _ = t.toByte :: (beBytes 4 (body.take n).length ++ body.take n) ++ body.drop n
    rw [htake, List.cons_append, List.append_assoc, List.take_append_drop]
    rfl
  · rw [List.length_drop]
    exact Nat.add_sub_cancel' hbody

theorem peek_overhang (hn : n < 2 ^ 32) (hw : t.width n ≤ body.length) :
    peek (Mem.ofList (headerBytes t.toByte n ++ body)) 0 =
      .ok ⟨t, n, body.take (t.width n)⟩ := by
  refine peek_of_value (headerAt_headerBytes hn _ _) (TypeTag.ofByte_toByte t) ?_
  rw [Mem.read_ofList (by rw [List.length_append, length_headerBytes]; omega),
    drop_headerBytes]

theorem peek_cutHeader (hne : bs ≠ []) (hlen : bs.length < 5) :
    peek (Mem.ofList bs) 0 = .error .readPastEnd := by
  refine peek_of_header_none (Option.not_isSome_iff_eq_none.mp fun hsome => ?_)
  have hfive := (headerAt_ofList_isSome (List.length_pos_of_ne_nil hne)).mp hsome
  exact absurd hlen (Nat.not_lt.mpr (Nat.zero_add 5 ▸ hfive))

theorem peek_unknown (hn : n < 2 ^ 32) (htag : TypeTag.ofByte tag = none) :
    peek (Mem.ofList (headerBytes tag n ++ body)) 0 = .error (.badType tag) :=
  peek_of_unknown (headerAt_headerBytes hn tag body) htag

theorem peek_cutValue (hn : n < 2 ^ 32) (hw : body.length < t.width n) :
    peek (Mem.ofList (headerBytes t.toByte n ++ body)) 0 = .error .readPastEnd := by
  refine peek_of_value_none (headerAt_headerBytes hn _ _) (TypeTag.ofByte_toByte t) ?_
  refine Mem.read_ofList_none (Nat.lt_of_le_of_lt (Nat.zero_le _) hw) ?_
  rw [List.length_append, length_headerBytes]
  omega

/-! ## Every buffer parses -/

theorem exists_parses (bs : List Byte) : ∃ out, Parses bs out := by
  induction hlen : bs.length using Nat.strongRecOn generalizing bs with
  | _ k ih =>
    subst hlen
    by_cases hne : bs = []
    · exact hne ▸ ⟨_, .done⟩
    rcases Nat.lt_or_ge bs.length 5 with hshort | hlong
    · exact ⟨_, .cutHeader hne hshort⟩
    obtain ⟨tag, n, body, hn, rfl⟩ := exists_headerBytes hlong
    cases htag : TypeTag.ofByte tag with
    | none => exact ⟨_, .unknown hn htag⟩
    | some t =>
      obtain rfl := TypeTag.toByte_of_ofByte htag
      rcases Nat.lt_or_ge body.length (t.width n) with hcut | hw
      · exact ⟨_, .cutValue hn hcut⟩
      rcases Nat.lt_or_ge body.length n with hover | hwhole
      · exact ⟨_, .overhang hn hover hw⟩
      obtain ⟨f, rest, rfl, rfl, hbytes, hrest⟩ := exists_frame t hn hwhole
      obtain ⟨out, hout⟩ := ih rest.length (by
        rw [List.length_append, length_headerBytes]
        omega) rest rfl
      exact hbytes ▸ ⟨_, .frame (hrest.symm ▸ hw) hout⟩

/-! ## The reader on a buffer that parses -/

/-- One pass of a reader that has gone through `pre`. -/
theorem reader_guard (hne : bs ≠ []) :
    (readerLoop h (Mem.ofList (pre ++ bs)) (pre ++ bs).length).guard (pre.length, vs) = true := by
  refine readerLoop_guard.mpr ?_
  show pre.length < (pre ++ bs).length
  rw [List.length_append]
  exact Nat.lt_add_of_pos_right (List.length_pos_of_ne_nil hne)

theorem reader_stops {e : Fault} (hne : bs ≠ []) (hp : peek (Mem.ofList bs) 0 = .error e) :
    (readerLoop h (Mem.ofList (pre ++ bs)) (pre ++ bs).length).Ends (pre.length, vs)
      (.error e) :=
  WhileLoop.ends_error (reader_guard hne)
    (readerLoop_body_eq_error.mpr ((peek_shift pre bs 0).trans hp))

theorem reader_takes {v : View} {e : Except Fault (Nat × List View)} (hne : bs ≠ [])
    (hp : peek (Mem.ofList bs) 0 = .ok v) :
    (readerLoop h (Mem.ofList (pre ++ bs)) (pre ++ bs).length).Ends (pre.length, vs) e ↔
      (readerLoop h (Mem.ofList (pre ++ bs)) (pre ++ bs).length).Ends
        (nextOffset h pre.length v.declared, vs ++ [v]) e :=
  WhileLoop.ends_pass (reader_guard hne) (readerLoop_body_ok ((peek_shift pre bs 0).trans hp))

/-- The reader that has gone through `pre` does what the grammar says of the rest. -/
theorem Parses.reader_ends (hw : h.word = .w64) (hp : Parses bs out) (pre : List Byte)
    (vs : List View) (hlen : (pre ++ bs).length ≤ h.ptrdiffMax) :
    ∃ e, (readerLoop h (Mem.ofList (pre ++ bs)) (pre ++ bs).length).Ends (pre.length, vs) e ∧
      e.map Prod.snd = out.map (vs ++ ·) := by
  have hmod := Host.szMod_w64 hw
  induction hp generalizing pre vs with
  | done =>
    have hg : (readerLoop h (Mem.ofList (pre ++ [])) (pre ++ []).length).guard (pre.length, vs) =
        false := decide_eq_false (by simp)
    exact ⟨_, WhileLoop.ends_done hg, by simp [Except.map]⟩
  | @frame f rest out hwidth hrest ih =>
    have hsplit : pre ++ (f.bytes ++ rest) = (pre ++ f.bytes) ++ rest :=
      (List.append_assoc _ _ _).symm
    have hnext : nextOffset h pre.length f.body.length = (pre ++ f.bytes).length := by
      rw [List.length_append, f.length_bytes]
      refine nextOffset_of_lt ?_
      simp only [List.length_append, f.length_bytes, Host.ptrdiffMax] at hlen
      omega
    rw [hsplit] at hlen
    obtain ⟨e, he, hout⟩ := ih (pre ++ f.bytes) (vs ++ [f.view rest]) hlen
    refine ⟨e, (reader_takes (by rw [f.bytes_eq]; exact List.cons_ne_nil _ _)
      (peek_frame hwidth)).mpr ?_, ?_⟩
    · rwa [← hsplit, ← hnext] at he
    · rw [hout]
      cases out with
      | error f => rfl
      | ok ws => simp [Except.map]
  | @overhang t n body hn hover hwidth =>
    have hnext : nextOffset h pre.length n = pre.length + (5 + n) := by
      refine nextOffset_of_lt ?_
      simp only [List.length_append, Host.ptrdiffMax] at hlen
      omega
    refine ⟨_, (reader_takes (headerBytes_append_ne _ _ _) (peek_overhang hn hwidth)).mpr
      (WhileLoop.ends_done (decide_eq_false ?_)), rfl⟩
    show ¬nextOffset h pre.length n < _
    rw [hnext, List.length_append, List.length_append, length_headerBytes]
    omega
  | cutHeader hne hshort => exact ⟨_, reader_stops hne (peek_cutHeader hne hshort), rfl⟩
  | unknown hn htag =>
    exact ⟨_, reader_stops (headerBytes_append_ne _ _ _) (peek_unknown hn htag), rfl⟩
  | cutValue hn hcut =>
    exact ⟨_, reader_stops (headerBytes_append_ne _ _ _) (peek_cutValue hn hcut), rfl⟩

/-! ## The calls of `deserialize` -/

/-- What calls on a buffer of these bytes come to: with any allocator and on any heap,
to an outcome; if that is an array, then to the messages of `out`, and else to the fault
of `out` or to the end of the process at an allocation that was refused. -/
structure Follows (h : Host) (bs : List Byte) (out : Except Fault (List View)) : Prop where
  comes : ∀ A heap, ∃ r, Deserializes h A (received bs) heap r
  returns : ∀ A heap r, Deserializes h A (received bs) heap (.ok r) →
    ∃ vs, out = .ok vs ∧ Decodes h A (received bs) heap (vs.map (View.message h.order))
  stops : ∀ A heap e, Deserializes h A (received bs) heap (.error e) →
    out = .error e.1 ∨ Refused A e fun A' => Deserializes h A' (received bs) heap (.error e)

/-- The reader of the whole buffer does what the grammar says. -/
theorem Parses.ends (hp : Parses bs out) (hw : h.word = .w64) (hlen : bs.length ≤ h.ptrdiffMax) :
    ∃ e, (readerLoop h (Mem.ofList bs) bs.length).Ends (0, []) e ∧ e.map Prod.snd = out := by
  obtain ⟨e, he, hout⟩ := hp.reader_ends hw [] [] hlen
  refine ⟨e, he, hout.trans ?_⟩
  cases out with
  | error f => rfl
  | ok vs => rfl

theorem Parses.follows (hp : Parses bs out) (hw : h.word = .w64)
    (hlen : bs.length ≤ h.ptrdiffMax) : Follows h bs out := by
  obtain ⟨e, he, rfl⟩ := hp.ends hw hlen
  refine ⟨fun A heap => ?_, fun A heap r hr => ?_, fun A heap f hf => ?_⟩
  · have hplenty : ∃ r, Deserializes h .always (received bs) heap r := by
      cases e with
      | error f =>
        obtain ⟨heap', hf⟩ := (fails_iff hw hlen).mpr he
        exact ⟨_, hf⟩
      | ok s =>
        obtain ⟨arr, heap', ms, hr, -, -⟩ := (decodes_iff hw hlen).mpr ⟨s.1, s.2, he, rfl⟩
        exact ⟨_, hr⟩
    obtain ⟨r, passes, hr⟩ := hplenty
    rcases deserialize_failStop (received bs) passes A heap with heq | ⟨e', -, hstop, -⟩
    · exact ⟨r, passes, heq.trans hr⟩
    · exact ⟨_, passes, hstop⟩
  · obtain ⟨n, o, es, hdr, -, -, hrec⟩ := deserialize_returns hr
    have hd := hrec.decodes hr
    obtain ⟨o', vs, hends, hms⟩ := hd.reader_ends
    cases he.unique hends
    exact ⟨vs, rfl, hms ▸ hd⟩
  · obtain ⟨passes, hf⟩ := hf
    rcases deserialize_failStop (received bs) passes A heap with heq | ⟨e', hrefused⟩
    · have hplenty : Fails h .always (received bs) heap f.1 := ⟨f.2, passes, heq.symm.trans hf⟩
      cases he.unique ((fails_iff hw hlen).mp hplenty)
      exact .inl rfl
    · cases hrefused.2.1.symm.trans hf
      exact .inr (hrefused.mono fun A' hstop => ⟨passes, hstop⟩)

/-- On a 64-bit host, every buffer parses in exactly one way, and calls of
`deserialize` follow it. -/
theorem deserialize_follows (hw : h.word = .w64) (hlen : bs.length ≤ h.ptrdiffMax) :
    (∃! out, Parses bs out) ∧ ∀ out, Parses bs out → Follows h bs out := by
  refine ⟨?_, fun out hp => hp.follows hw hlen⟩
  obtain ⟨out, hp⟩ := exists_parses bs
  refine ⟨out, hp, fun out' hp' => ?_⟩
  obtain ⟨e, he, rfl⟩ := hp.ends hw hlen
  obtain ⟨e', he', rfl⟩ := hp'.ends hw hlen
  rw [he.unique he']

/-- A padded boolean, a short number that takes a byte of the next frame, and a frame
that is not whole. -/
def mixedBytes : List Byte :=
  [12, 0, 0, 0, 2, 1, 9] ++ [2, 0, 0, 0, 1, 7] ++ [1, 0, 0, 0, 9, 65]

theorem parses_mixed :
    Parses mixedBytes (.ok [⟨.bol, 2, [1]⟩, ⟨.u16, 1, [7, 1]⟩, ⟨.u08, 9, [65]⟩]) := by
  have hlast : Parses (headerBytes TypeTag.u08.toByte 9 ++ [65]) (.ok [⟨.u08, 9, [65]⟩]) :=
    .overhang (by decide) (by decide) (by decide)
  have hshort := Parses.frame (f := ⟨.u16, [7], by decide⟩) (by decide) hlast
  exact .frame (f := ⟨.bol, [1, 9], by decide⟩) (by decide) hshort

theorem deserialize_follows_mixed : (∃! out, Parses mixedBytes out) ∧
    Follows ⟨.little, .w64⟩ mixedBytes
      (.ok [⟨.bol, 2, [1]⟩, ⟨.u16, 1, [7, 1]⟩, ⟨.u08, 9, [65]⟩]) :=
  have hfollows := deserialize_follows (h := ⟨.little, .w64⟩) rfl (by decide)
  ⟨hfollows.1, hfollows.2 _ parses_mixed⟩

end Tlv
