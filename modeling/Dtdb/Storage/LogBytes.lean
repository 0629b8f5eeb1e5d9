import Dtdb.Storage.FramedLog

/-! # Recovery from any bytes

`recover_from_reader` rejects a complete header that is not its own, and otherwise returns the
records of the longest run of good frames behind it. -/

namespace Dtdb.Storage

open Dtdb.Lib List Option

variable {E : Type} {c : Codec E}

/-! ## Good frames -/

/-- A frame that is complete, not too long, checks and decodes. -/
def IsFrame (c : Codec E) (f : Bytes) (e : E) : Prop :=
  ∃ len sum payload, f = len ++ (sum ++ payload) ∧ len.length = 4 ∧ sum.length = 4 ∧
    ofLeBytes len = payload.length ∧ payload.length ≤ maxFrameBytes ∧
    (c.checksum payload).toNat = ofLeBytes sum ∧ c.decode payload = some e

theorem readFrame_eq_some {bs rest : Bytes} {e : E} :
    readFrame c bs = some (e, rest) ↔ ∃ f, bs = f ++ rest ∧ IsFrame c f e := by
  constructor
  · intro h
    obtain ⟨⟨len, bs₁⟩, hlen, h⟩ := bind_eq_some_iff.1 h
    obtain ⟨hcap, h⟩ := ite_none_left_eq_some.1 h
    obtain ⟨⟨sum, bs₂⟩, hsum, h⟩ := bind_eq_some_iff.1 h
    obtain ⟨⟨payload, bs₃⟩, hpayload, h⟩ := bind_eq_some_iff.1 h
    obtain ⟨hcheck, h⟩ := ite_none_left_eq_some.1 h
    obtain ⟨e', hdecode, h⟩ := map_eq_some_iff.1 h
    cases h
    obtain ⟨hbs, hlen₄⟩ := readExact_eq_some.1 hlen
    obtain ⟨hbs₁, hsum₄⟩ := readExact_eq_some.1 hsum
    obtain ⟨hbs₂, hsize⟩ := readExact_eq_some.1 hpayload
    refine ⟨len ++ (sum ++ payload), ?_, len, sum, payload, rfl, hlen₄, hsum₄, hsize.symm,
      hsize ▸ not_lt.1 hcap, not_not.1 hcheck, hdecode⟩
    dsimp only at hbs₁ hbs₂
    rw [hbs, hbs₁, hbs₂, append_assoc, append_assoc]
  · rintro ⟨f, rfl, len, sum, payload, rfl, hlen, hsum, hsize, hcap, hcheck, hdecode⟩
    unfold readFrame
    simp [readExact_append hlen, readExact_append hsum, hsize, readExact_append rfl,
      not_lt.2 hcap, hcheck, hdecode]

/-- The bytes decide where a frame ends. -/
theorem IsFrame.unique {f f' r r' : Bytes} {e e' : E} (h : IsFrame c f e) (h' : IsFrame c f' e')
    (heq : f ++ r = f' ++ r') : f = f' ∧ e = e' := by
  have hread : readFrame c (f ++ r) = some (e, r) := readFrame_eq_some.2 ⟨f, rfl, h⟩
  rw [heq, readFrame_eq_some.2 ⟨f', rfl, h'⟩] at hread
  cases hread
  exact ⟨append_cancel_right heq, rfl⟩

theorem IsFrame.readFrame_take {f : Bytes} {e : E} (h : IsFrame c f e) {n : Nat} (hn : n < f.length) :
    readFrame c (f.take n) = none := by
  cases hread : readFrame c (f.take n) with
  | none => rfl
  | some x =>
    obtain ⟨f', hf', hframe⟩ := readFrame_eq_some.1 hread
    have heq : f ++ [] = f' ++ (x.2 ++ f.drop n) := by
      rw [append_nil, ← append_assoc, ← hf', take_append_drop]
    have hlen := congrArg length hf'
    rw [← (h.unique hframe heq).1, length_append, length_take_of_le hn.le] at hlen
    omega

/-! ## Runs of frames -/

theorem recoverBody_framed {fs : List Bytes} {es : List E} (h : List.Forall₂ (IsFrame c) fs es)
    (bs : Bytes) : recoverBody c (fs.flatten ++ bs) = es ++ recoverBody c bs := by
  induction h with
  | nil => rfl
  | cons hf _ ih =>
    rw [flatten_cons, append_assoc,
      recoverBody_cons (readFrame_eq_some.2 ⟨_, rfl, hf⟩), ih]
    rfl

theorem exists_frames (c : Codec E) (bs : Bytes) :
    ∃ fs rest, bs = fs.flatten ++ rest ∧ List.Forall₂ (IsFrame c) fs (recoverBody c bs) := by
  induction hn : bs.length using Nat.strong_induction_on generalizing bs with
  | _ n ih =>
    cases hread : readFrame c bs with
    | none => exact ⟨[], bs, rfl, by rw [recoverBody_of_none hread]; exact .nil⟩
    | some x =>
      obtain ⟨e, rest⟩ := x
      obtain ⟨fs, tail, hrest, hframes⟩ := ih _ (hn ▸ length_of_readFrame hread) rest rfl
      obtain ⟨f, rfl, hf⟩ := readFrame_eq_some.1 hread
      refine ⟨f :: fs, tail, by rw [flatten_cons, append_assoc, ← hrest], ?_⟩
      rw [recoverBody_cons hread]
      exact .cons hf hframes

/-- The records of the longest run of good frames that the bytes start with. -/
def LongestFrames (c : Codec E) (bs : Bytes) (es : List E) : Prop :=
  (∃ fs rest, bs = fs.flatten ++ rest ∧ List.Forall₂ (IsFrame c) fs es) ∧
    ∀ fs es' rest, bs = fs.flatten ++ rest → List.Forall₂ (IsFrame c) fs es' → es' <+: es

theorem longestFrames_recoverBody (bs : Bytes) : LongestFrames c bs (recoverBody c bs) := by
  refine ⟨exists_frames c bs, ?_⟩
  rintro fs es' rest rfl hframes
  rw [recoverBody_framed hframes]
  exact prefix_append _ _

theorem recoverBody_take (bs : Bytes) (n : Nat) : recoverBody c (bs.take n) <+: recoverBody c bs := by
  obtain ⟨fs, rest, hbs, hframes⟩ := exists_frames c (bs.take n)
  have hall : bs = fs.flatten ++ (rest ++ bs.drop n) := by
    rw [← append_assoc, ← hbs, take_append_drop]
  exact (longestFrames_recoverBody bs).2 fs _ _ hall hframes

def frameEnd (fs : List Bytes) (i : Nat) : Nat := (fs.take (i + 1)).flatten.length

/-- **A cut through good frames** keeps those that end before it. -/
theorem recoverBody_cut {fs : List Bytes} {es : List E} (h : List.Forall₂ (IsFrame c) fs es) (n : Nat) :
    ∃ k, recoverBody c (fs.flatten.take n) = es.take k ∧
      ∀ i, i < es.length → (i < k ↔ frameEnd fs i ≤ n) := by
  induction h generalizing n with
  | nil => exact ⟨0, by simp [recoverBody, recoverLoop], by simp⟩
  | @cons f e fs es hf _ ih =>
    rw [flatten_cons, take_append]
    by_cases hn : f.length ≤ n
    · obtain ⟨k, hk, hends⟩ := ih (n - f.length)
      refine ⟨k + 1, ?_, fun i hi => ?_⟩
      · rw [take_of_length_le hn, recoverBody_cons (readFrame_eq_some.2 ⟨f, rfl, hf⟩), hk,
          take_succ_cons]
      · cases i with
        | zero => simpa [frameEnd] using hn
        | succ i =>
          have := hends i (by simpa using hi)
          unfold frameEnd at this ⊢
          rw [take_succ_cons, flatten_cons, length_append]
          omega
    · have hlt : n < f.length := not_le.1 hn
      refine ⟨0, ?_, fun i _ => ?_⟩
      · rw [Nat.sub_eq_zero_of_le hlt.le, take_zero, append_nil,
          recoverBody_of_none (hf.readFrame_take hlt), take_zero]
      · unfold frameEnd
        rw [take_succ_cons, flatten_cons, length_append]
        omega

/-! ## Whole files -/

/-- The file begins with its format's magic and version. -/
def LogFormat.Begins (format : LogFormat) (file : Bytes) : Prop :=
  format.magic ++ [format.version] <+: file

variable {format : LogFormat}

theorem validateHeader_eq_ok {header : Bytes} (h : header.length = 8) :
    validateHeader format header = .ok () ↔ format.Begins header := by
  have hbegins : format.Begins header ↔
      header.take 4 = format.magic ∧ header.getD 4 0 = format.version := by
    match header, h with
    | [a, b, c, d, v, x, y, z], _ =>
      obtain ⟨magic, version, hmagic⟩ := format
      match magic, hmagic with
      | [a', b', c', d'], _ => simp [LogFormat.Begins, eq_comm, and_assoc]
  rw [hbegins]
  unfold validateHeader
  split
  · next hmagic => exact ⟨nofun, fun h => absurd h.1 hmagic⟩
  · next hmagic =>
    split
    · next hversion => exact ⟨nofun, fun h => absurd h.2 hversion⟩
    · next hversion => exact ⟨fun _ => ⟨not_not.1 hmagic, not_not.1 hversion⟩, fun _ => rfl⟩

variable {file : Bytes}

theorem LogFormat.Begins.take {n : Nat} (hn : 5 ≤ n) :
    format.Begins (file.take n) ↔ format.Begins file := by
  have hlen : (format.magic ++ [format.version]).length ≤ n := by
    rw [length_append, format.length_magic]
    exact hn
  exact prefix_take_iff.trans (and_iff_left hlen)

theorem recoverFromReader_of_le (h : 8 ≤ file.length) :
    recoverFromReader c format file
      = (validateHeader format (file.take 8)).map fun _ => recoverBody c (file.drop 8) := by
  unfold recoverFromReader
  rw [readExact_eq_some.2 ⟨(take_append_drop 8 file).symm, length_take_of_le h⟩]
  rfl

theorem recoverFromReader_of_lt (h : file.length < 8) :
    recoverFromReader c format file = .ok [] := by
  unfold recoverFromReader
  rw [readExact, if_neg (not_le.2 h)]

theorem recoverFromReader_eq_ok {es : List E} :
    recoverFromReader c format file = .ok es ↔
      (file.length < 8 ∨ format.Begins file) ∧ es = recoverBody c (file.drop 8) := by
  by_cases h : file.length < 8
  · rw [recoverFromReader_of_lt h, drop_of_length_le h.le]
    simp [h, recoverBody, recoverLoop]
  · have hle : 8 ≤ file.length := not_lt.1 h
    rw [recoverFromReader_of_le hle,
      ← LogFormat.Begins.take (show 5 ≤ 8 by decide),
      ← validateHeader_eq_ok (length_take_of_le hle)]
    cases validateHeader format (file.take 8) with
    | error e => simp [h, Except.map]
    | ok u => simp [Except.map, eq_comm]

structure RecoversAny (c : Codec E) (format : LogFormat) (file : Bytes) : Prop where
  accepts : (∃ es, recoverFromReader c format file = .ok es) ↔
    file.length < 8 ∨ format.Begins file
  records : ∀ es, recoverFromReader c format file = .ok es → LongestFrames c (file.drop 8) es
  truncated : ∀ es, recoverFromReader c format file = .ok es → ∀ n, ∃ es',
    recoverFromReader c format (file.take n) = .ok es' ∧ es' <+: es
  /-- A log of well-formed frames that is cut loses those that reach past the cut. -/
  cut : ∀ header fs es, file = header ++ fs.flatten → header.length = 8 → format.Begins header →
    List.Forall₂ (IsFrame c) fs es → ∀ n, ∃ k,
      recoverFromReader c format (file.take n) = .ok (es.take k) ∧
        ∀ i, i < es.length → (i < k ↔ 8 + frameEnd fs i ≤ n)

theorem begins_take_or (n : Nat) (h : file.length < 8 ∨ format.Begins file) :
    (file.take n).length < 8 ∨ format.Begins (file.take n) := by
  by_cases hn : n < 8
  · left
    rw [length_take]
    omega
  · refine h.imp (fun hlt => ?_) (LogFormat.Begins.take (by omega)).2
    rw [length_take]
    omega

/-- **Recovery of any file**: what is accepted, which records are read, and what a cut leaves. -/
theorem recovers_any (c : Codec E) (format : LogFormat) (file : Bytes) :
    RecoversAny c format file where
  accepts := by simp only [recoverFromReader_eq_ok, exists_and_left, exists_eq, and_true]
  records es h := by
    rw [(recoverFromReader_eq_ok.1 h).2]
    exact longestFrames_recoverBody _
  truncated es h n := by
    obtain ⟨haccepts, rfl⟩ := recoverFromReader_eq_ok.1 h
    refine ⟨_, recoverFromReader_eq_ok.2 ⟨begins_take_or n haccepts, rfl⟩, ?_⟩
    rw [drop_take]
    exact recoverBody_take _ _
  cut header fs es hfile hheader hbegins hframes n := by
    have hbody : file.drop 8 = fs.flatten := by rw [hfile, drop_left' hheader]
    have hbegins : format.Begins file := hbegins.trans ⟨_, hfile.symm⟩
    obtain ⟨k, hk, hends⟩ := recoverBody_cut hframes (n - 8)
    by_cases hn : n < 8
    · refine ⟨0, recoverFromReader_of_lt ?_, fun i _ => ?_⟩
      · rw [length_take]
        omega
      · omega
    · refine ⟨k, recoverFromReader_eq_ok.2 ⟨begins_take_or n (.inr hbegins), ?_⟩, fun i hi => ?_⟩
      · rw [drop_take, hbody, hk]
      · rw [hends i hi]
        omega

end Dtdb.Storage
