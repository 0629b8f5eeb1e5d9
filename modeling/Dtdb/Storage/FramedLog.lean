import Mathlib.Data.List.Sublists
import Dtdb.Lib.Bytes
import Dtdb.Lib.Run

/-! # The framed log

Length-framed, checksummed records.  The writer leaves what a failed write put into the file; the
reader stops at the first frame that is too long, cut off, or does not check. -/

namespace Dtdb.Storage

open Dtdb.Lib List Option

/-- `MAX_FRAME_BYTES`: recovery stops at a longer payload. -/
def maxFrameBytes : Nat := 64 * 1024 * 1024

/-- The serialisation of records, which round-trips, and the checksum of a payload. -/
structure Codec (E : Type) where
  encode : E → Bytes
  decode : Bytes → Option E
  checksum : Bytes → UInt32
  decode_encode : ∀ e, decode (encode e) = some e

structure LogFormat where
  magic : Bytes
  version : UInt8
  length_magic : magic.length = 4

def LogFormat.encode (format : LogFormat) : Bytes := format.magic ++ [format.version, 0, 0, 0]

inductive HeaderError where
  | magicMismatch (expected found : Bytes)
  | unsupportedVersion (found expected : UInt8)
deriving DecidableEq

/-- The check that `open` and `recover` make of a complete header. -/
def validateHeader (format : LogFormat) (header : Bytes) : Except HeaderError Unit :=
  if header.take 4 ≠ format.magic then .error (.magicMismatch format.magic (header.take 4))
  else if header.getD 4 0 ≠ format.version then
    .error (.unsupportedVersion (header.getD 4 0) format.version)
  else .ok ()

/-! ## The reader -/

section

variable {E : Type} (c : Codec E)

/-- `build_frame`: the length, cut to 32 bits, the checksum and the payload. -/
def buildFrame (e : E) : Bytes :=
  leBytes 4 (c.encode e).length ++ leBytes 4 (c.checksum (c.encode e)).toNat ++ c.encode e

/-- One turn of the recovery loop; `none` ends it. -/
def readFrame (bs : Bytes) : Option (E × Bytes) :=
  (readExact 4 bs).bind fun len =>
    if ofLeBytes len.1 > maxFrameBytes then none
    else (readExact 4 len.2).bind fun sum =>
      (readExact (ofLeBytes len.1) sum.2).bind fun payload =>
        if (c.checksum payload.1).toNat ≠ ofLeBytes sum.1 then none
        else (c.decode payload.1).map (·, payload.2)

/-- The recovery loop; each turn reads at least a frame header. -/
def recoverLoop : Nat → Bytes → List E
  | 0, _ => []
  | n + 1, bs => match readFrame c bs with
    | none => []
    | some (e, bs) => e :: recoverLoop n bs

def recoverFromReader (format : LogFormat) (file : Bytes) : Except HeaderError (List E) :=
  match readExact 8 file with
  | none => .ok []
  | some (header, body) =>
    (validateHeader format header).map fun _ => recoverLoop c body.length body

/-- `recover`; a missing file recovers as empty. -/
def recoverFile (format : LogFormat) (file : Option Bytes) : Except HeaderError (List E) :=
  (file.map (recoverFromReader c format)).getD (.ok [])

end

/-! ## The writer -/

/-- A log that is open for appending; `file` is what the file holds. -/
structure FramedLog where
  format : LogFormat
  syncIntervalMs : Option Nat
  sizeBytes : Nat
  file : Bytes

/-- What goes wrong in a call: the write, after some bytes, or the sync. -/
inductive WriteFault where
  | write (written : Nat)
  | sync
deriving DecidableEq

namespace FramedLog

/-- `open`, with what the file held before if it existed. -/
def openFile (format : LogFormat) (syncIntervalMs : Option Nat) (file : Option Bytes) :
    Except HeaderError FramedLog :=
  let bytes := file.getD []
  if bytes.length < 8 then
    .ok ⟨format, syncIntervalMs, 8, format.encode⟩
  else
    (validateHeader format (bytes.take 8)).map fun _ =>
      ⟨format, syncIntervalMs, bytes.length, bytes⟩

/-- Whether an append syncs before it returns. -/
def syncs (log : FramedLog) : Bool := log.syncIntervalMs = none ∨ log.syncIntervalMs = some 0

/-- The flag says whether the call returned `Ok`. -/
def writeBytes (log : FramedLog) (bytes : Bytes) (fault : Option WriteFault) : FramedLog × Bool :=
  match fault with
  | some (.write n) => ({ log with file := log.file ++ bytes.take n }, false)
  | some .sync => ({ log with
      file := log.file ++ bytes
      sizeBytes := log.sizeBytes + bytes.length }, !log.syncs)
  | none => ({ log with
      file := log.file ++ bytes
      sizeBytes := log.sizeBytes + bytes.length }, true)

def append {E : Type} (c : Codec E) (log : FramedLog) (e : E) (fault : Option WriteFault) :
    FramedLog × Bool :=
  log.writeBytes (buildFrame c e) fault

def appendPrebuiltBytes (log : FramedLog) (framed : Bytes) (fault : Option WriteFault) :
    FramedLog × Bool :=
  if framed.isEmpty then (log, true) else log.writeBytes framed fault

end FramedLog

/-! ## Sequences of calls -/

/-- The second kind is given frames that were built before. -/
inductive AppendCall (E : Type) where
  | append (e : E)
  | appendPrebuiltBytes (es : List E)

def AppendCall.records {E : Type} : AppendCall E → List E
  | .append e => [e]
  | .appendPrebuiltBytes es => es

/-- A log with the records of the calls that returned `Ok`. -/
structure Appended (E : Type) where
  log : FramedLog
  acked : List E

section

variable {E : Type} (c : Codec E)

def frames (es : List E) : Bytes := es.flatMap (buildFrame c)

def AppendCall.run (log : FramedLog) (call : AppendCall E) (fault : Option WriteFault) :
    FramedLog × Bool :=
  match call with
  | .append e => log.append c e fault
  | .appendPrebuiltBytes es => log.appendPrebuiltBytes (frames c es) fault

def Appended.step (s : Appended E) (l : AppendCall E × Option WriteFault) : Option (Appended E) :=
  let r := l.1.run c s.log l.2
  some ⟨r.1, if r.2 then s.acked ++ l.1.records else s.acked⟩

def Codec.Fits (e : E) : Prop := (c.encode e).length ≤ maxFrameBytes

/-- The file is a header followed by complete frames that recovery accepts. -/
def Whole (file : Bytes) : Prop :=
  ∃ header es, header.length = 8 ∧ (∀ e ∈ es, c.Fits e) ∧ file = header ++ frames c es

/-- A call that returns `Ok` finds the file whole, and its records are not too long. -/
def Appended.StepSafe (s : Appended E) (l : AppendCall E × Option WriteFault) : Prop :=
  (l.1.run c s.log l.2).2 = true → l.1.records ≠ [] →
    Whole c s.log.file ∧ ∀ e ∈ l.1.records, c.Fits e

end

/-! ## Reading frames back -/

section

variable {E : Type} {c : Codec E}

theorem Codec.Fits.lt {e : E} (h : c.Fits e) : (c.encode e).length < 256 ^ 4 := by
  unfold Codec.Fits maxFrameBytes at h
  omega

theorem readFrame_buildFrame {e : E} (h : c.Fits e) (bs : Bytes) :
    readFrame c (buildFrame c e ++ bs) = some (e, bs) := by
  have hlen : ofLeBytes (leBytes 4 (c.encode e).length) = (c.encode e).length :=
    ofLeBytes_leBytes_of_lt h.lt
  have hsum : ofLeBytes (leBytes 4 (c.checksum (c.encode e)).toNat)
      = (c.checksum (c.encode e)).toNat := ofLeBytes_leBytes_of_lt (UInt32.toNat_lt _)
  have hcap : ¬(c.encode e).length > maxFrameBytes := not_lt.2 h
  unfold readFrame buildFrame
  simp [readExact_append (length_leBytes ..), readExact_append rfl, hlen, hsum, hcap,
    c.decode_encode]

theorem length_of_readFrame {bs rest : Bytes} {e : E} (h : readFrame c bs = some (e, rest)) :
    rest.length < bs.length := by
  obtain ⟨len, hlen, h⟩ := bind_eq_some_iff.1 h
  split at h
  · cases h
  · obtain ⟨sum, hsum, h⟩ := bind_eq_some_iff.1 h
    obtain ⟨payload, hpayload, h⟩ := bind_eq_some_iff.1 h
    split at h
    · cases h
    · obtain ⟨e', -, h⟩ := map_eq_some_iff.1 h
      cases h
      have hlen := length_of_readExact hlen
      have hsum := length_of_readExact hsum
      have hpayload := length_of_readExact hpayload
      omega

theorem recoverLoop_eq {n : Nat} {bs : Bytes} (h : bs.length ≤ n) :
    recoverLoop c n bs = recoverLoop c bs.length bs := by
  induction n using Nat.strong_induction_on generalizing bs with
  | _ n ih =>
    cases n with
    | zero =>
      rw [length_eq_zero_iff.1 (Nat.le_zero.1 h)]
      rfl
    | succ n =>
      cases hbs : bs.length with
      | zero =>
        rw [length_eq_zero_iff.1 hbs]
        rfl
      | succ m =>
        simp only [recoverLoop]
        cases hread : readFrame c bs with
        | none => rfl
        | some x =>
          obtain ⟨e, rest⟩ := x
          have hlt := length_of_readFrame hread
          show e :: recoverLoop c n rest = e :: recoverLoop c m rest
          rw [ih n (Nat.lt_succ_self n) (by omega), ← ih m (by omega) (by omega)]

def recoverBody (c : Codec E) (bs : Bytes) : List E := recoverLoop c bs.length bs

theorem recoverBody_cons {bs rest : Bytes} {e : E} (h : readFrame c bs = some (e, rest)) :
    recoverBody c bs = e :: recoverBody c rest := by
  have hlt := length_of_readFrame h
  unfold recoverBody
  cases hbs : bs.length with
  | zero => omega
  | succ n =>
    simp only [recoverLoop, h]
    rw [recoverLoop_eq (by omega)]

theorem recoverBody_of_none {bs : Bytes} (h : readFrame c bs = none) : recoverBody c bs = [] := by
  unfold recoverBody
  cases bs.length with
  | zero => rfl
  | succ n => simp only [recoverLoop, h]

variable {format : LogFormat}

theorem recoverFile_header {header : Bytes} (hlen : header.length = 8)
    (hvalid : validateHeader format header = .ok ()) (body : Bytes) :
    recoverFile c format (some (header ++ body)) = .ok (recoverBody c body) := by
  show recoverFromReader c format (header ++ body) = _
  unfold recoverFromReader
  rw [readExact_append hlen]
  show (validateHeader format header).map (fun _ => recoverBody c body) = _
  rw [hvalid]
  rfl

/-- **Complete frames are read back**, whatever follows them. -/
theorem recoverBody_frames {es : List E} (h : ∀ e ∈ es, c.Fits e) (bs : Bytes) :
    recoverBody c (frames c es ++ bs) = es ++ recoverBody c bs := by
  induction es with
  | nil => rfl
  | cons e es ih =>
    have hread : readFrame c (frames c (e :: es) ++ bs) = some (e, frames c es ++ bs) := by
      unfold frames
      rw [flatMap_cons, append_assoc]
      exact readFrame_buildFrame (h e mem_cons_self) _
    rw [recoverBody_cons hread, ih fun x hx => h x (.tail _ hx)]
    rfl

/-! ## The invariant -/

/-- The acknowledged records are among the complete frames at the start. -/
def Appended.Inv (c : Codec E) (format : LogFormat) (s : Appended E) : Prop :=
  ∃ header es tail, header.length = 8 ∧ validateHeader format header = .ok () ∧
    (∀ e ∈ es, c.Fits e) ∧ s.log.file = header ++ (frames c es ++ tail) ∧ s.acked.Sublist es

theorem validateHeader_encode (format : LogFormat) :
    validateHeader format format.encode = .ok () := by
  have htake : format.encode.take 4 = format.magic := take_left' format.length_magic
  have hget : format.encode.getD 4 0 = format.version := by
    unfold LogFormat.encode
    simp [format.length_magic]
  unfold validateHeader
  rw [htake, hget]
  simp

theorem Appended.Inv.start {interval : Option Nat} {file : Option Bytes} {log : FramedLog}
    (h : FramedLog.openFile format interval file = .ok log) :
    Appended.Inv c format ⟨log, []⟩ := by
  unfold FramedLog.openFile at h
  simp only at h
  split at h
  · cases h
    exact ⟨format.encode, [], [], by simp [LogFormat.encode, format.length_magic],
      validateHeader_encode format, nofun, (append_nil _).symm, .slnil⟩
  · next hlen =>
    cases hvalid : validateHeader format ((file.getD []).take 8) with
    | error err =>
      rw [hvalid] at h
      cases h
    | ok u =>
      rw [hvalid] at h
      cases h
      refine ⟨(file.getD []).take 8, [], (file.getD []).drop 8, ?_, hvalid, nofun, ?_, .slnil⟩
      · rw [length_take]
        omega
      · exact (take_append_drop 8 _).symm

def Wrote (log : FramedLog) (bytes : Bytes) (r : FramedLog × Bool) : Prop :=
  ∃ bs, r.1.file = log.file ++ bs ∧ (r.2 = true → bs = bytes)

theorem wrote_writeBytes (log : FramedLog) (bytes : Bytes) (fault : Option WriteFault) :
    Wrote log bytes (log.writeBytes bytes fault) := by
  rcases fault with _ | n | _
  · exact ⟨bytes, rfl, fun _ => rfl⟩
  · exact ⟨bytes.take n, rfl, nofun⟩
  · exact ⟨bytes, rfl, fun _ => rfl⟩

theorem AppendCall.wrote_run (log : FramedLog) (call : AppendCall E) (fault : Option WriteFault) :
    Wrote log (frames c call.records) (call.run c log fault) := by
  cases call with
  | append e =>
    have hframe : frames c [e] = buildFrame c e := flatMap_singleton ..
    show Wrote log (frames c [e]) (log.writeBytes (buildFrame c e) fault)
    rw [hframe]
    exact wrote_writeBytes ..
  | appendPrebuiltBytes es =>
    show Wrote log (frames c es) (log.appendPrebuiltBytes (frames c es) fault)
    unfold FramedLog.appendPrebuiltBytes
    split
    · next hempty =>
      exact ⟨[], (append_nil _).symm, fun _ => (isEmpty_iff.1 hempty).symm⟩
    · exact wrote_writeBytes ..

theorem exists_of_whole {header es tail} (hheader : header.length = 8) (hes : ∀ e ∈ es, c.Fits e)
    (h : Whole c (header ++ (frames c es ++ tail))) :
    ∃ fs, (∀ e ∈ es ++ fs, c.Fits e) ∧ frames c es ++ tail = frames c (es ++ fs) := by
  obtain ⟨header', all, hheader', hall, heq⟩ := h
  obtain ⟨-, hbody⟩ := append_inj heq (hheader.trans hheader'.symm)
  have hread : es ++ recoverBody c tail = all := by
    have hframes := recoverBody_frames hall []
    rw [append_nil, ← hbody, recoverBody_frames hes] at hframes
    rw [hframes]
    exact append_nil _
  exact ⟨recoverBody c tail, hread ▸ hall, by rw [hread, hbody]⟩

theorem Appended.Inv.step {s s' : Appended E} {l : AppendCall E × Option WriteFault}
    (h : s.Inv c format) (hsafe : s.StepSafe c l) (hs : s.step c l = some s') :
    s'.Inv c format := by
  obtain ⟨header, es, tail, hheader, hvalid, hes, hfile, hsub⟩ := h
  obtain ⟨bs, hfile', hwrote⟩ := l.1.wrote_run s.log l.2
  rw [hfile, append_assoc] at hfile'
  cases hs
  by_cases hnew : (l.1.run c s.log l.2).2 = true ∧ l.1.records ≠ []
  · obtain ⟨hok, hne⟩ := hnew
    obtain ⟨hwhole, hfits⟩ := hsafe hok hne
    rw [hfile] at hwhole
    obtain ⟨fs, hfs, hall⟩ := exists_of_whole hheader hes hwhole
    refine ⟨header, es ++ fs ++ l.1.records, [], hheader, hvalid, fun e he => ?_, ?_, ?_⟩
    · exact (mem_append.1 he).elim (hfs e) (hfits e)
    · rw [hfile', hwrote hok, hall]
      simp [frames]
    · simp only [hok]
      exact (hsub.trans (sublist_append_left ..)).append (.refl _)
  · -- nothing new was acknowledged
    refine ⟨header, es, tail ++ bs, hheader, hvalid, hes, ?_, ?_⟩
    · rw [hfile', append_assoc]
    · split
      · next hok =>
        rw [not_and_not_right.1 hnew hok, append_nil]
        exact hsub
      · exact hsub

theorem Appended.Inv.recovered {s : Appended E} (h : s.Inv c format) :
    ∃ es, recoverFile c format (some s.log.file) = .ok es ∧ s.acked.Sublist es := by
  obtain ⟨header, es, tail, hheader, hvalid, hes, hfile, hsub⟩ := h
  refine ⟨es ++ recoverBody c tail, ?_, hsub.trans (sublist_append_left ..)⟩
  rw [hfile, recoverFile_header hheader hvalid, recoverBody_frames hes]

/-! ## Whether a file is whole -/

theorem whole_iff {file : Bytes} :
    Whole c file ↔ 8 ≤ file.length ∧ (∀ e ∈ recoverBody c (file.drop 8), c.Fits e) ∧
      frames c (recoverBody c (file.drop 8)) = file.drop 8 := by
  constructor
  · rintro ⟨header, es, hheader, hes, rfl⟩
    have hbody : (header ++ frames c es).drop 8 = frames c es := drop_left' hheader
    have hread : recoverBody c (frames c es) = es := by
      have hframes := recoverBody_frames hes []
      rwa [append_nil, show recoverBody c [] = [] from rfl, append_nil] at hframes
    rw [hbody, hread]
    exact ⟨by rw [length_append]; omega, hes, rfl⟩
  · rintro ⟨hlen, hes, hframes⟩
    refine ⟨file.take 8, _, ?_, hes, ?_⟩
    · rw [length_take]
      omega
    · rw [hframes, take_append_drop]

instance (e : E) : Decidable (c.Fits e) := Nat.decLe _ _

instance (file : Bytes) : Decidable (Whole c file) := decidable_of_iff' _ whole_iff

instance [DecidableEq E] (s : Appended E) (l : AppendCall E × Option WriteFault) :
    Decidable (s.StepSafe c l) := by
  unfold Appended.StepSafe
  infer_instance

end

/-- **Acknowledged records are read back**, in order: in every sequence of appends, of which any may
fail after any part of its bytes, if every call that returns `Ok` finds the file whole and appends
no record of more than 64 MiB. -/
theorem recover_acked {E : Type} (c : Codec E) {format : LogFormat} {interval : Option Nat}
    {file : Option Bytes} {log : FramedLog} (hopen : FramedLog.openFile format interval file = .ok log)
    {ls : List (AppendCall E × Option WriteFault)} {s : Appended E}
    (hrun : Run (Appended.step c) (Appended.StepSafe c) ⟨log, []⟩ ls s) :
    ∃ es, recoverFile c format (some s.log.file) = .ok es ∧ s.acked.Sublist es := by
  have h : s.Inv c format := hrun.invariant (I := fun _ s => Appended.Inv c format s)
    (.start hopen) fun _ _ _ _ h hsafe hs => h.step hsafe hs
  exact h.recovered

def rawCodec (checksum : Bytes → UInt32) : Codec Bytes := ⟨id, some, checksum, fun _ => rfl⟩

def walFormat : LogFormat := ⟨[0x44, 0x57, 0x41, 0x4c], 1, rfl⟩

def newWal : FramedLog := ⟨walFormat, none, 8, walFormat.encode⟩

def failingCalls : List (AppendCall Bytes × Option WriteFault) :=
  [(.append [1], none), (.append [2], some (.write 0)), (.appendPrebuiltBytes [[3], [4]], none),
    (.append [5], some (.write 7))]

theorem recover_failingCalls : ∃ s,
    Run (Appended.step (rawCodec fun bs => .ofNat (ofLeBytes bs)))
      (Appended.StepSafe (rawCodec fun bs => .ofNat (ofLeBytes bs))) ⟨newWal, []⟩ failingCalls s ∧
    s.acked = [[1], [3], [4]] ∧
    ∃ es, recoverFile (rawCodec fun bs => .ofNat (ofLeBytes bs)) walFormat (some s.log.file) = .ok es ∧
      s.acked.Sublist es := by
  have hopen : FramedLog.openFile walFormat none none = .ok newWal := rfl
  refine Run.exists_of_exec (p := fun s => s.acked = [[1], [3], [4]]) (by decide +kernel)
    fun s hs hacked => ?_
  exact ⟨hacked, recover_acked _ hopen hs⟩

/-- The first call fails after one byte, the second returns `Ok`, and recovery returns nothing. -/
theorem torn_append_lost : ∃ s,
    exec (Appended.step (rawCodec fun _ => 0)) ⟨newWal, []⟩
      [(.append [1], some (.write 1)), (.append [2], none)] = some s ∧
    s.acked = [[2]] ∧ recoverFile (rawCodec fun _ => 0) walFormat (some s.log.file) = .ok [] := by
  have hread : readFrame (rawCodec fun _ => 0) ((buildFrame (rawCodec fun _ => 0) [1]).take 1
      ++ buildFrame (rawCodec fun _ => 0) [2]) = none := by
    simp [readFrame, buildFrame, rawCodec, leBytes, readExact, ofLeBytes]
  refine ⟨_, rfl, rfl, ?_⟩
  show recoverFile _ walFormat (some (walFormat.encode ++ (buildFrame (rawCodec fun _ => 0) [1]).take 1
    ++ buildFrame (rawCodec fun _ => 0) [2])) = _
  rw [append_assoc, recoverFile_header rfl (validateHeader_encode _), recoverBody_of_none hread]

end Dtdb.Storage
