/-
# Sequential-unformatted records

`read_records` and `write_record`: a record is a length, the payload, and the length again.
A length that is no multiple of the item size counts items, not bytes.
-/
import DaceFortran.Lib.LittleEndian
import DaceFortran.Lib.TwosComplement

open List

namespace Unformatted

/-! ## Items -/

/-- A numpy dtype: the bytes of an item, and the item read back from them. -/
structure DType (α : Type) where
  itemsize : ℕ
  encode : α → List UInt8
  decode : List UInt8 → α
  itemsize_pos : 0 < itemsize
  length_encode : ∀ a, (encode a).length = itemsize
  decode_encode : ∀ a, decode (encode a) = a

/-- A slice `raw[a:b]`. -/
def slice (raw : List UInt8) (a b : ℕ) : List UInt8 := (raw.drop a).take (b - a)

/-- The first `n` pieces of `size` bytes. -/
def pieces (size : ℕ) : ℕ → List UInt8 → List (List UInt8)
  | 0, _ => []
  | n + 1, bytes => bytes.take size :: pieces size n (bytes.drop size)

variable {α : Type} (d : DType α)

/-- `tobytes` -/
def DType.tobytes (values : List α) : List UInt8 := values.flatMap d.encode

/-- `np.frombuffer`; numpy refuses a buffer that holds no whole number of items. -/
def DType.frombuffer (bytes : List UInt8) : Option (List α) :=
  if bytes.length % d.itemsize =
    0 then some ((pieces d.itemsize (bytes.length / d.itemsize) bytes).map d.decode)
  else none

/-! ## Markers -/

/-- The errors of the reader, each with what its message names. -/
inductive UnformattedError where
  | negativeLength (marker : ℤ)
  | truncatedMarker (off : ℕ)
  | pastEnd (off : ℕ)
  | markersDisagree (off : ℕ) (head tail : ℤ)
  | bufferSize (off : ℕ)
  deriving DecidableEq

/-- The `np.int32` of four bytes. -/
def int32 (bytes : List UInt8) : ℤ := (BitVec.ofNat 32 (LittleEndian.value bytes)).toInt

/-- `_payload_len` -/
def payloadLen (marker : ℤ) (itemsize : ℕ) : Except UnformattedError ℕ :=
  if marker < 0 then .error (.negativeLength marker)
  else if itemsize > 1 ∧ marker % itemsize ≠ 0 then .ok (marker.toNat * itemsize)
  else .ok marker.toNat

/-! ## Records -/

/-- What `read_records` yields, each record with the offset it was read at, and how it ends. -/
structure Reading (α : Type) where
  yields : List (ℕ × List α)
  error : Option UnformattedError

/-- The loop of `read_records`, from an offset. -/
def readFrom (raw : List UInt8) (off : ℕ) : Reading α :=
  if off < raw.length then
    if off + 4 > raw.length then ⟨[], some (.truncatedMarker off)⟩
    else
      match payloadLen (int32 (slice raw off (off + 4))) d.itemsize with
      | .error e => ⟨[], some e⟩
      | .ok n =>
        if off + 8 + n > raw.length then ⟨[], some (.pastEnd off)⟩
        else
          match d.frombuffer (slice raw (off + 4) (off + 4 + n)) with
          | none => ⟨[], some (.bufferSize off)⟩
          | some values =>
            -- the record is yielded before its trailing marker is looked at
            if int32 (slice raw (off + 4 + n) (off + 8 + n)) ≠ int32 (slice raw off (off + 4)) then
              ⟨[(off, values)], some (.markersDisagree off (int32 (slice raw off (off + 4)))
                (int32 (slice raw (off + 4 + n) (off + 8 + n))))⟩
            else
              let r := readFrom raw (off + 8 + n)
              ⟨(off, values) :: r.yields, r.error⟩
  else ⟨[], none⟩
termination_by raw.length - off

/-- `read_records` -/
def readRecords (raw : List UInt8) : Reading α := readFrom d raw 0

/-- The framing of `write_record`; `struct.pack` refuses a length that is no 32-bit integer. -/
def writeRecord (values : List α) : Option (List UInt8) :=
  let payload := d.tobytes values
  if payload.length < 2 ^ 31 then
    some (LittleEndian.bytes 4 payload.length ++ payload ++ LittleEndian.bytes 4 payload.length)
  else none

/-! ## What a reader should do -/

/-- The framings of some records, one after the other. -/
def writeRecords (records : List (List α)) : Option (List UInt8) :=
  (records.mapM (writeRecord d)).map List.flatten

/-- A record lies inside the data, between markers that agree. -/
def WellFramed (raw : List UInt8) (y : ℕ × List α) : Prop :=
  ∃ n, payloadLen (int32 (slice raw y.1 (y.1 + 4))) d.itemsize = .ok n ∧ y.1 + 8 + n ≤ raw.length ∧
    int32 (slice raw (y.1 + 4 + n) (y.1 + 8 + n)) = int32 (slice raw y.1 (y.1 + 4)) ∧
    d.frombuffer (slice raw (y.1 + 4) (y.1 + 4 + n)) = some y.2

/-- Every record written is read back, in order. -/
def RoundTrips (records : List (List α)) : Prop :=
  ∀ raw, writeRecords d records = some raw →
    (readRecords d raw).yields.map Prod.snd = records ∧ (readRecords d raw).error = none

/-- Whatever the data, only well-framed records are yielded. -/
def YieldsWellFramed (raw : List UInt8) : Prop :=
  ∀ y ∈ (readRecords d raw).yields, WellFramed d raw y

/-- A frame: a marker, the payload it announces, and a marker of the same value. -/
structure Frame where
  marker : List UInt8
  payload : List UInt8
  trailer : List UInt8
  length_marker : marker.length = 4
  length_trailer : trailer.length = 4
  announces : payloadLen (int32 marker) d.itemsize = .ok payload.length
  agrees : int32 trailer = int32 marker

/-- The bytes of a frame. -/
def Frame.bytes {d : DType α} (f : Frame d) : List UInt8 := f.marker ++ f.payload ++ f.trailer

/-- No frame announced at the head of the data fits in it. -/
def OpensNoFrame (rest : List UInt8) : Prop :=
  rest.length < 4 ∨ ∀ n, payloadLen (int32 (rest.take 4)) d.itemsize = .ok n → rest.length < 8 + n

/-- The data are frames, and what is left over opens none. -/
def Framed (raw : List UInt8) : Prop :=
  ∃ (frames : List (Frame d)) (rest : List UInt8), raw = frames.flatMap Frame.bytes ++ rest ∧
    OpensNoFrame d rest

end Unformatted

/-
# Reading what was written, and what was not

Records are read back as they were written.  Of arbitrary data the reader yields only
well-framed records exactly if the data are frames up to where no frame fits: a frame whose
markers disagree is yielded before they are compared.
-/

namespace Unformatted

variable {α : Type} {d : DType α}

/-! ## Items -/

theorem pieces_tobytes (values : List α) :
    pieces d.itemsize values.length (d.tobytes values) = values.map d.encode := by
  induction values with
  | nil => rfl
  | cons a values ih =>
    have hlen := d.length_encode a
    rw [DType.tobytes, flatMap_cons, length_cons, pieces, map_cons, ← hlen, take_left,
      drop_left, hlen]
    rw [DType.tobytes] at ih
    rw [ih]

theorem length_tobytes (values : List α) :
    (d.tobytes values).length = values.length * d.itemsize := by
  induction values with
  | nil => simp [DType.tobytes]
  | cons a values ih =>
    rw [DType.tobytes] at ih ⊢
    rw [flatMap_cons, length_append, d.length_encode, ih, length_cons]
    ring

/-- The items of a buffer are those it was made from. -/
theorem frombuffer_tobytes (values : List α) : d.frombuffer (d.tobytes values) = some values := by
  have hdiv : (d.tobytes values).length / d.itemsize = values.length := by
    rw [length_tobytes, Nat.mul_div_cancel _ d.itemsize_pos]
  have hmod : (d.tobytes values).length % d.itemsize = 0 := by
    rw [length_tobytes, Nat.mul_mod_left]
  rw [DType.frombuffer, if_pos hmod, hdiv, pieces_tobytes, map_map]
  congr 1
  rw [show d.decode ∘ d.encode = id from funext d.decode_encode, map_id]

/-! ## Markers -/

/-- A marker of bytes is the length it was written for. -/
theorem int32_bytes {n : ℕ} (h : n < 2 ^ 31) : int32 (LittleEndian.bytes 4 n) = n := by
  rw [int32, LittleEndian.value_bytes, Nat.mod_eq_of_lt (by omega), BitVec.toInt_ofNat']
  rw [Int.bmod_def]
  split <;> omega

/-- The payload of a record is a whole number of items. -/
theorem mod_of_payloadLen {marker : ℤ} {n : ℕ} (h : payloadLen marker d.itemsize = .ok n) :
    n % d.itemsize = 0 := by
  have hpos := d.itemsize_pos
  unfold payloadLen at h
  split_ifs at h with hneg hitems
  · rw [← Except.ok.inj h, Nat.mul_mod_left]
  · rw [← Except.ok.inj h]
    rw [not_and_or, not_lt, not_not] at hitems
    rcases hitems with hone | hmod
    · rw [show d.itemsize = 1 by omega, Nat.mod_one]
    · obtain ⟨m, rfl⟩ := Int.eq_ofNat_of_zero_le (not_lt.1 hneg)
      rw [Int.toNat_natCast]
      exact_mod_cast hmod

theorem payloadLen_of_mod {n k : ℕ} (h : n % k = 0) : payloadLen n k = .ok n := by
  have hmod : ((n : ℕ) : ℤ) % (k : ℕ) = 0 := by omega
  unfold payloadLen
  rw [if_neg (by omega), if_neg (by simp [hmod]), Int.toNat_natCast]

variable {bytes pre : List UInt8} {values : List α}

theorem exists_frombuffer (h : bytes.length % d.itemsize = 0) :
    ∃ values, d.frombuffer bytes = some values := by
  rw [DType.frombuffer, if_pos h]
  exact ⟨_, rfl⟩

/-! ## One turn of the reader -/

section Turn

variable {raw : List UInt8} {off : ℕ}

/-- A frame is announced at an offset that fits into the data. -/
def FitsAt (d : DType α) (raw : List UInt8) (off n : ℕ) : Prop :=
  payloadLen (int32 (slice raw off (off + 4))) d.itemsize = .ok n ∧ off + 8 + n ≤ raw.length

theorem length_slice {a b : ℕ} (hab : a ≤ b) (hb : b ≤ raw.length) :
    (slice raw a b).length = b - a := by
  rw [slice, length_take, length_drop]
  omega

theorem slice_append_drop {a b : ℕ} (hab : a ≤ b) : slice raw a b ++ raw.drop b = raw.drop a := by
  have hdrop : raw.drop b = (raw.drop a).drop (b - a) := by
    rw [drop_drop, Nat.add_sub_cancel' hab]
  rw [slice, hdrop, take_append_drop]

/-- The record of a frame that fits is yielded, whatever its trailing marker. -/
theorem readFrom_of_fits {n : ℕ} (h : FitsAt d raw off n) :
    ∃ values, d.frombuffer (slice raw (off + 4) (off + 4 + n)) = some values ∧ readFrom d raw off =
      if int32 (slice raw (off + 4 + n) (off + 8 + n)) ≠ int32 (slice raw off (off + 4)) then
        ⟨[(off, values)], some (.markersDisagree off (int32 (slice raw off (off + 4)))
          (int32 (slice raw (off + 4 + n) (off + 8 + n))))⟩
      else ⟨(off, values) :: (readFrom d raw (off + 8 + n)).yields,
        (readFrom d raw (off + 8 + n)).error⟩ := by
  obtain ⟨hlen, hfits⟩ := h
  have hpayload : (slice raw (off + 4) (off + 4 + n)).length = n := by
    rw [length_slice (by omega) (by omega)]
    omega
  obtain ⟨values, hvalues⟩ : ∃ values, d.frombuffer (slice raw (off + 4) (off + 4 + n)) =
      some values := by
    apply exists_frombuffer
    rw [hpayload]
    exact mod_of_payloadLen hlen
  refine ⟨values, hvalues, ?_⟩
  rw [readFrom, if_pos (by omega), if_neg (by omega)]
  simp only [hlen]
  rw [if_neg (by omega)]
  simp only [hvalues]

/-- Where no frame fits nothing is yielded. -/
theorem yields_of_not_fits (h : ∀ n, ¬ FitsAt d raw off n) : (readFrom d raw off).yields = [] := by
  rw [readFrom]
  split
  · split
    · rfl
    · cases hlen : payloadLen (int32 (slice raw off (off + 4))) d.itemsize with
      | error e => rfl
      | ok n =>
        simp only
        rw [if_pos]
        by_contra hfits
        exact h n ⟨hlen, by omega⟩
  · rfl

theorem readFrom_end (h : raw.length ≤ off) : readFrom d raw off = ⟨[], none⟩ := by
  rw [readFrom, if_neg (by omega)]

end Turn

/-! ## Frames -/

/-- The values of a frame. -/
theorem Frame.exists_values (f : Frame d) : ∃ values, d.frombuffer f.payload = some values :=
  exists_frombuffer (mod_of_payloadLen f.announces)

theorem Frame.length_bytes (f : Frame d) : f.bytes.length = 8 + f.payload.length := by
  rw [Frame.bytes, length_append, length_append, f.length_marker, f.length_trailer]
  omega

theorem slice_append {x post : List UInt8} {a b : ℕ} (ha : a = pre.length)
    (hb : b = pre.length + x.length) :
    slice (pre ++ (x ++ post)) a b = x := by
  rw [slice, ha, hb, drop_left, Nat.add_sub_cancel_left, take_left]

/-- **A frame is read.** -/
theorem readFrom_frame (pre : List UInt8) (f : Frame d) (post : List UInt8)
    (hvalues : d.frombuffer f.payload = some values) :
    WellFramed d (pre ++ (f.bytes ++ post)) (pre.length, values) ∧
      readFrom d (pre ++ (f.bytes ++ post)) pre.length =
        ⟨(pre.length, values) :: (readFrom d (pre ++ (f.bytes ++ post))
          (pre.length + f.bytes.length)).yields,
          (readFrom d (pre ++ (f.bytes ++ post)) (pre.length + f.bytes.length)).error⟩ := by
  have hbytes : f.bytes ++ post = f.marker ++ (f.payload ++ (f.trailer ++ post)) := by
    simp [Frame.bytes]
  have hmarker : slice (pre ++ (f.bytes ++ post)) pre.length (pre.length + 4) = f.marker := by
    rw [hbytes]
    exact slice_append rfl (by rw [f.length_marker])
  have hpayload : slice (pre ++ (f.bytes ++ post)) (pre.length + 4)
      (pre.length + 4 + f.payload.length) = f.payload := by
    rw [hbytes, ← append_assoc]
    apply slice_append <;> simp [f.length_marker]
  have htrailer : slice (pre ++ (f.bytes ++ post)) (pre.length + 4 + f.payload.length)
      (pre.length + 8 + f.payload.length) = f.trailer := by
    rw [hbytes, ← append_assoc, ← append_assoc]
    apply slice_append
    · simp [f.length_marker, Nat.add_assoc]
    · simp only [length_append, f.length_marker, f.length_trailer]
      omega
  have hfits : FitsAt d (pre ++ (f.bytes ++ post)) pre.length f.payload.length := by
    refine ⟨by rw [hmarker]; exact f.announces, ?_⟩
    rw [length_append, length_append, f.length_bytes]
    omega
  obtain ⟨values', hvalues', hread⟩ := readFrom_of_fits hfits
  rw [hpayload, hvalues] at hvalues'
  obtain rfl := Option.some.inj hvalues'
  constructor
  · refine ⟨f.payload.length, hfits.1, hfits.2, ?_, ?_⟩
    · rw [htrailer, hmarker]
      exact f.agrees
    · rw [hpayload]
      exact hvalues
  · rw [hread, htrailer, hmarker, if_neg (not_not.2 f.agrees), f.length_bytes, ← Nat.add_assoc]

/-- Reading frames, and then what is left over. -/
theorem readFrom_frames (frames : List (Frame d)) (pre rest : List UInt8) :
    ∃ values : List (List α), List.Forall₂ (fun f v => d.frombuffer f.payload =
      some v) frames values ∧
      ∃ ys, ys.map Prod.snd = values ∧
        (∀ y ∈ ys, WellFramed d (pre ++ (frames.flatMap Frame.bytes ++ rest)) y) ∧
        readFrom d (pre ++ (frames.flatMap Frame.bytes ++ rest)) pre.length =
          ⟨ys ++ (readFrom d (pre ++ (frames.flatMap Frame.bytes ++ rest))
            (pre ++ frames.flatMap Frame.bytes).length).yields,
            (readFrom d (pre ++ (frames.flatMap Frame.bytes ++ rest))
            (pre ++ frames.flatMap Frame.bytes).length).error⟩ := by
  induction frames generalizing pre with
  | nil => exact ⟨[], .nil, [], rfl, by simp, by simp⟩
  | cons f frames ih =>
    obtain ⟨v, hv⟩ := f.exists_values
    obtain ⟨values, hvalues, ys, hys, hframed, hread⟩ := ih (pre ++ f.bytes)
    have hsplit : pre ++ ((f :: frames).flatMap Frame.bytes ++ rest) =
        pre ++ (f.bytes ++ (frames.flatMap Frame.bytes ++ rest)) := by
      rw [flatMap_cons, append_assoc]
    obtain ⟨hfirst, hturn⟩ := readFrom_frame pre f (frames.flatMap Frame.bytes ++ rest) hv
    rw [append_assoc] at hframed hread
    refine ⟨v :: values, .cons hv hvalues, (pre.length, v) :: ys, by rw [map_cons, hys], ?_, ?_⟩
    · rw [hsplit]
      intro y hy
      rcases mem_cons.1 hy with rfl | hy
      · exact hfirst
      · exact hframed y hy
    · rw [hsplit, hturn, ← length_append, hread, flatMap_cons, append_assoc pre f.bytes]
      rfl

/-- What is written for a record is a frame of its values. -/
theorem exists_frame (h : writeRecord d values = some bytes) :
    ∃ f : Frame d, f.bytes = bytes ∧ f.payload = d.tobytes values := by
  unfold writeRecord at h
  simp only at h
  split at h
  · next hlt =>
    have hmod : (d.tobytes values).length % d.itemsize = 0 := by
      rw [length_tobytes, Nat.mul_mod_left]
    refine ⟨⟨LittleEndian.bytes 4 (d.tobytes values).length, d.tobytes values,
      LittleEndian.bytes 4 (d.tobytes values).length, LittleEndian.length_bytes _ _,
        LittleEndian.length_bytes _ _,
      ?_, rfl⟩, Option.some.inj h, rfl⟩
    rw [int32_bytes hlt]
    exact payloadLen_of_mod hmod
  · cases h

/-- What is written for records is a frame for each. -/
theorem exists_frames {records : List (List α)} {raw : List UInt8}
    (h : writeRecords d records = some raw) :
    ∃ frames : List (Frame d), raw = frames.flatMap Frame.bytes ∧
      List.Forall₂ (fun f values => f.payload = d.tobytes values) frames records := by
  induction records generalizing raw with
  | nil =>
    obtain rfl := Option.some.inj h
    exact ⟨[], rfl, .nil⟩
  | cons values records ih =>
    rw [writeRecords, mapM_cons] at h
    cases hw : writeRecord d values with
    | none => simp [hw] at h
    | some bytes =>
      cases hrest : records.mapM (writeRecord d) with
      | none => simp [hw, hrest] at h
      | some more =>
        obtain ⟨f, hf, hpayload⟩ := exists_frame hw
        obtain ⟨frames, hframes, hall⟩ := @ih more.flatten (by rw [writeRecords, hrest]; rfl)
        refine ⟨f :: frames, ?_, .cons hpayload hall⟩
        simp only [hw, hrest] at h
        obtain rfl := Option.some.inj h
        rw [flatMap_cons, hf, ← hframes]
        rfl

/-- **Records are read back as they were written.** -/
theorem roundTrips (records : List (List α)) : RoundTrips d records := by
  intro raw hraw
  obtain ⟨frames, rfl, hall⟩ := exists_frames hraw
  obtain ⟨values, hvalues, ys, hys, -, hread⟩ := readFrom_frames frames [] []
  simp only [nil_append, append_nil, length_nil] at hread
  rw [readFrom_end (Nat.le_refl _), append_nil] at hread
  have heq : values = records := by
    clear hys hread hraw
    induction hall generalizing values with
    | nil =>
      cases hvalues
      rfl
    | cons hpayload _ ih =>
      cases hvalues with
      | cons hv hvalues =>
        rw [hpayload, frombuffer_tobytes] at hv
        rw [← Option.some.inj hv, ih _ hvalues]
  rw [readRecords, hread]
  exact ⟨hys.trans heq, rfl⟩

/-! ## A file cut off -/

/-- How the reader ends when `n` bytes are left of a record that begins at an offset, too few for
the record. -/
def tornError (off n : ℕ) : Option UnformattedError :=
  if n = 0 then none else if n < 4 then some (.truncatedMarker off) else some (.pastEnd off)

/-- Of a file of records of which `n` bytes are left, those are read that lie wholly in them; the
error names where the torn one begins.  `off` is where the file begins. -/
def ReadUpTo (d : DType α) (records : List (List α)) (n off : ℕ) (r : Reading α) : Prop :=
  ∃ done torn whole, records = done ++ torn ∧ writeRecords d done = some whole ∧ whole.length ≤ n ∧
    (∀ values ∈ torn.head?, ∀ bytes, writeRecord d values = some bytes →
      n < whole.length + bytes.length) ∧
    r.yields.map Prod.snd = done ∧ r.error = tornError (off + whole.length) (n - whole.length)

/-- A file of records may be cut off at any byte. -/
def SurvivesCuts (d : DType α) (records : List (List α)) : Prop :=
  ∀ raw, writeRecords d records = some raw →
    ∀ n ≤ raw.length, ReadUpTo d records n 0 (readRecords d (raw.take n))

/-- A record of which only some bytes are left is not yielded; the error names where it begins. -/
theorem readFrom_torn (pre : List UInt8) (f : Frame d) {n : ℕ} (hn : n < f.bytes.length) :
    readFrom d (pre ++ f.bytes.take n) pre.length = ⟨[], tornError pre.length n⟩ := by
  have hlength : (pre ++ f.bytes.take n).length = pre.length + n := by
    rw [length_append, length_take, min_eq_left hn.le]
  rw [f.length_bytes] at hn
  rw [readFrom, hlength, tornError]
  split_ifs with hsome hshort <;> try omega
  · rfl
  · -- the marker is whole, so it announces the payload that does not fit
    have hmarker : slice (pre ++ f.bytes.take n) pre.length (pre.length + 4) = f.marker := by
      rw [slice, drop_left, Nat.add_sub_cancel_left, take_take, min_eq_left (by omega), Frame.bytes,
        append_assoc, ← f.length_marker, take_left]
    simp only [hmarker, f.announces]
    rw [if_pos (by omega)]
  · rfl

theorem writeRecords_cons (values : List α) (records : List (List α)) :
    writeRecords d (values :: records) =
      (writeRecord d values).bind fun bytes => (writeRecords d records).map fun more =>
        bytes ++ more := by
  unfold writeRecords
  cases hw : writeRecord d values <;> cases hrest : records.mapM (writeRecord d) <;>
    simp [mapM_cons, hw, hrest]

theorem readFrom_cut (records : List (List α)) {raw : List UInt8}
    (hraw : writeRecords d records = some raw)
    (pre : List UInt8) {n : ℕ} (hn : n ≤ raw.length) :
    ReadUpTo d records n pre.length (readFrom d (pre ++ raw.take n) pre.length) := by
  induction records generalizing raw pre n with
  | nil =>
    obtain rfl : [] = raw := Option.some.inj hraw
    obtain rfl : n = 0 := Nat.le_zero.1 hn
    rw [take_nil, append_nil, readFrom_end le_rfl]
    exact ⟨[], [], [], rfl, rfl, le_rfl, by simp, rfl, rfl⟩
  | cons values records ih =>
    rw [writeRecords_cons, Option.bind_eq_some_iff] at hraw
    obtain ⟨bytes, hbytes, hraw⟩ := hraw
    obtain ⟨more, hmore, rfl⟩ := Option.map_eq_some_iff.1 hraw
    obtain ⟨f, rfl, hpayload⟩ := exists_frame hbytes
    by_cases htorn : n < f.bytes.length
    · rw [take_append_of_le_length htorn.le, readFrom_torn pre f htorn]
      refine ⟨[], values :: records, [], rfl, rfl, Nat.zero_le _, ?_, rfl, rfl⟩
      simpa [hbytes] using htorn
    · obtain ⟨m, rfl⟩ := Nat.exists_eq_add_of_le (not_lt.1 htorn)
      rw [length_append] at hn
      obtain ⟨done, torn, whole, rfl, hwhole, hle, hfirst, hyields, herror⟩ :=
        ih hmore (pre ++ f.bytes)
        (Nat.le_of_add_le_add_left hn)
      obtain ⟨-, hturn⟩ := readFrom_frame pre f (more.take m)
        (by rw [hpayload]; exact frombuffer_tobytes values)
      rw [append_assoc, length_append] at hyields herror
      rw [take_append, take_of_length_le (by omega), Nat.add_sub_cancel_left, hturn]
      refine ⟨values :: done, torn, f.bytes ++ whole, rfl, ?_, ?_, ?_, ?_, ?_⟩
      · rw [writeRecords_cons, hbytes, hwhole]
        rfl
      · rw [length_append]
        omega
      · intro v hv b hb
        have := hfirst v hv b hb
        rw [length_append]
        omega
      · rw [map_cons, hyields]
      · rw [herror, length_append, Nat.add_sub_add_left, Nat.add_assoc]

/-- **A file cut off at any byte gives the records that lie wholly before the cut, in order.**  A
cut between two records is not noticed. -/
theorem readRecords_survivesCuts (records : List (List α)) : SurvivesCuts d records :=
  fun _ hraw _ hn => readFrom_cut records hraw [] hn

/-! ## Arbitrary data -/

theorem not_fitsAt_of_opensNoFrame {rest : List UInt8} (h : OpensNoFrame d rest) (n : ℕ) :
    ¬ FitsAt d (pre ++ rest) pre.length n := by
  rintro ⟨hlen, hfits⟩
  have hmarker : slice (pre ++ rest) pre.length (pre.length + 4) = rest.take 4 := by
    rw [slice, drop_left, Nat.add_sub_cancel_left]
  rw [length_append] at hfits
  rw [hmarker] at hlen
  rcases h with h | h
  · omega
  · have := h n hlen
    omega

/-- Of frames and a rest that opens none only well-framed records are yielded. -/
theorem yieldsWellFramed_of_framed {raw : List UInt8} (h : Framed d raw) :
    YieldsWellFramed d raw := by
  obtain ⟨frames, rest, rfl, hrest⟩ := h
  obtain ⟨values, -, ys, -, hframed, hread⟩ := readFrom_frames frames [] rest
  simp only [nil_append, length_nil] at hframed hread
  rw [yields_of_not_fits (not_fitsAt_of_opensNoFrame hrest), append_nil] at hread
  intro y hy
  rw [readRecords, hread] at hy
  exact hframed y hy

/-- What is read from an offset on well-framed records only is framed there. -/
theorem framed_of_wellFramed (raw : List UInt8) (off : ℕ) (hoff : off ≤ raw.length)
    (h : ∀ y ∈ (readFrom d raw off).yields, WellFramed d raw y) : Framed d (raw.drop off) := by
  induction hn : raw.length - off using Nat.strongRecOn generalizing off with
  | _ n ih =>
    by_cases hfits : ∃ n, FitsAt d raw off n
    · -- a frame fits: it is yielded, so its markers agree
      obtain ⟨len, hfit⟩ := hfits
      obtain ⟨values, hvalues, hread⟩ := readFrom_of_fits hfit
      obtain ⟨hlen, hle⟩ := hfit
      have hmem : (off, values) ∈ (readFrom d raw off).yields := by
        rw [hread]
        split
        · exact mem_singleton_self _
        · exact mem_cons_self
      obtain ⟨len', hlen', -, hagree, -⟩ := h _ hmem
      simp only at hlen' hagree
      rw [hlen] at hlen'
      obtain rfl := Except.ok.inj hlen'
      rw [if_neg (not_not.2 hagree)] at hread
      rw [hread] at h
      obtain ⟨frames, rest, heq, hrest⟩ :=
        ih (raw.length - (off + 8 + len)) (by omega) (off + 8 + len) hle
        (fun y hy => h y (mem_cons_of_mem _ hy)) rfl
      have hl₁ : (slice raw off (off + 4)).length = 4 := by
        rw [length_slice (by omega) (by omega)]
        omega
      have hl₂ : (slice raw (off + 4) (off + 4 + len)).length = len := by
        rw [length_slice (by omega) (by omega)]
        omega
      have hl₃ : (slice raw (off + 4 + len) (off + 8 + len)).length = 4 := by
        rw [length_slice (by omega) (by omega)]
        omega
      refine ⟨⟨slice raw off (off + 4), slice raw (off + 4) (off + 4 + len),
        slice raw (off + 4 + len) (off + 8 + len),
        hl₁, hl₃, by rw [hl₂]; exact hlen, hagree⟩ :: frames, rest, ?_, hrest⟩
      rw [flatMap_cons, append_assoc, ← heq, Frame.bytes, append_assoc, append_assoc,
        slice_append_drop (by omega), slice_append_drop (by omega), slice_append_drop (by omega)]
    · refine ⟨[], raw.drop off, rfl, ?_⟩
      by_cases hshort : (raw.drop off).length < 4
      · exact Or.inl hshort
      · refine Or.inr (fun len hlen => ?_)
        by_contra hfit
        rw [length_drop] at hfit hshort
        apply hfits
        refine ⟨len, ?_, by omega⟩
        rw [slice, Nat.add_sub_cancel_left]
        exact hlen

/-- **What the reader keeps of its promise**: records are read back as they were written; of
arbitrary data only well-framed records are yielded exactly if the data are frames and a rest that
opens none. -/
theorem readRecords_sound_iff (d : DType α) :
    (∀ records, RoundTrips d records) ∧ ∀ raw, YieldsWellFramed d raw ↔ Framed d raw := by
  refine ⟨roundTrips, fun raw => ⟨?_, yieldsWellFramed_of_framed⟩⟩
  intro h
  exact framed_of_wellFramed raw 0 (Nat.zero_le _) h

/-! ## A corrupted trailing marker -/

/-- `np.uint8` -/
def uint8 : DType UInt8 where
  itemsize := 1
  encode a := [a]
  decode bytes := bytes.headD 0
  itemsize_pos := Nat.one_pos
  length_encode _ := rfl
  decode_encode _ := rfl

/-- One byte, announced as one and closed as two. -/
def corrupted : List UInt8 := [1, 0, 0, 0, 7, 2, 0, 0, 0]

/-- **The corrupted record is yielded.** -/
theorem not_yieldsWellFramed_corrupted : ¬ YieldsWellFramed uint8 corrupted := by
  intro h
  have hfits : FitsAt uint8 corrupted 0 1 := ⟨rfl, by decide⟩
  obtain ⟨values, -, hread⟩ := readFrom_of_fits hfits
  have hmem : (0, values) ∈ (readRecords uint8 corrupted).yields := by
    rw [readRecords, hread, if_pos (by decide)]
    exact List.mem_singleton_self _
  obtain ⟨n, hn, -, hagree, -⟩ := h _ hmem
  obtain rfl : 1 = n := Except.ok.inj (hfits.1.symm.trans hn)
  simp only at hagree
  exact absurd hagree (by decide)

end Unformatted
