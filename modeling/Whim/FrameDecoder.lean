import Mathlib.Data.UInt
import Whim.Incremental

/-!
# HTTP/2 frames

The encoder of one frame and the incremental decoder: a buffer to which every push appends, and a loop that takes
complete frames off its front.
-/

namespace Whim.FrameDecoder

open StreamParser List UInt64

def maximumFrameSize : UInt32 := 0x00ffffff
def maximumStreamId : UInt32 := 0x7fffffff
def protocolError : Int64 := 1
def frameSizeError : Int64 := 6

structure RawFrame where
  kind : UInt8
  flags : UInt8
  stream : UInt32
  payload : List UInt8

/-- A frame as the program sees it: type, flags, stream and payload. -/
abbrev FrameTuple := UInt64 × UInt64 × UInt64 × List UInt8

def RawFrame.tuple (frame : RawFrame) : FrameTuple :=
  (frame.kind.toUInt64,frame.flags.toUInt64,frame.stream.toUInt64,frame.payload)

/-- The sizes `frame_size` accepts. -/
abbrev FrameSize := { size : UInt32 // size ≤ maximumFrameSize }

structure DecoderState where
  buffer : List UInt8
  maximumFrameSize : FrameSize

structure DecodeError where
  message : String
  code : Int64

def oversizedFrame : DecodeError := ⟨"the HTTP/2 frame exceeds the configured maximum size",frameSizeError⟩

def frameSize (value : UInt64) : Except String FrameSize :=
  if h : value.toNat < 2 ^ 32 ∧ value.toUInt32 ≤ maximumFrameSize then .ok ⟨value.toUInt32,h.2⟩
  else .error "the HTTP/2 maximum frame size is out of range"

def create (size : UInt64) : Except String DecoderState := do return ⟨[],← frameSize size⟩

def fromBeBytes (a b c d : UInt8) : UInt32 := UInt32.ofNat (((a.toNat*256+b.toNat)*256+c.toNat)*256+d.toNat)

def toBeBytes (n : UInt32) : List UInt8 :=
  [UInt8.ofNat (n.toNat / 256 ^ 3),UInt8.ofNat (n.toNat / 256 ^ 2),UInt8.ofNat (n.toNat / 256),UInt8.ofNat n.toNat]

def encodeFrame : FrameTuple → Except String (List UInt8)
  | (kind,flags,stream,payload) =>
    if 256 ≤ kind then .error "the HTTP/2 frame type must fit in one byte"
    else if 256 ≤ flags then .error "the HTTP/2 frame flags must fit in one byte"
    else if maximumStreamId.toUInt64 < stream then .error "the HTTP/2 stream identifier is out of range"
    else if maximumFrameSize.toNat < payload.length then .error "the HTTP/2 frame payload is too large"
    else .ok ((toBeBytes (UInt32.ofNat payload.length)).drop 1++[kind.toUInt8,flags.toUInt8] ++
      toBeBytes stream.toUInt32++payload)

section

variable (buffer : List UInt8) (offset : ℕ)

/-- The byte of the buffer at a position the loop has checked. -/
def byteAt (i : ℕ) : UInt8 := buffer.getD i 0

/-- The payload length in the header at the offset. -/
def headerLength : UInt32 :=
  fromBeBytes 0 (byteAt buffer offset) (byteAt buffer (offset+1)) (byteAt buffer (offset+2))

def frameAt : RawFrame where
  kind := byteAt buffer (offset+3)
  flags := byteAt buffer (offset+4)
  stream := fromBeBytes (byteAt buffer (offset+5)) (byteAt buffer (offset+6)) (byteAt buffer (offset+7))
    (byteAt buffer (offset+8)) &&& 0x7fffffff
  payload := (buffer.drop (offset+9)).take (headerLength buffer offset).toNat

/-- The loop of `decode_frames`: the frames and the offset it ends at. -/
def decodeLoop (limit : UInt32) (offset : ℕ) (frames : List RawFrame) : Except DecodeError (List RawFrame × ℕ) :=
  if buffer.length-offset < 9 then .ok (frames,offset)
  else if limit < headerLength buffer offset then .error oversizedFrame
  else if buffer.length-offset < 9+(headerLength buffer offset).toNat then .ok (frames,offset)
  else decodeLoop limit (offset+(9+(headerLength buffer offset).toNat)) (frames++[frameAt buffer offset])
termination_by buffer.length-offset

end

/-- `decode_frames`. The buffer keeps the new bytes also when decoding fails. -/
def decodeFrames (state : DecoderState) (bytes : List UInt8) : Except DecodeError (List RawFrame) × DecoderState :=
  let buffer := state.buffer++bytes
  match decodeLoop buffer state.maximumFrameSize.1 0 [] with
  | .error error => (.error error,{ state with buffer := buffer })
  | .ok (frames,offset) => (.ok frames,{ state with buffer := buffer.drop offset })

def push (state : DecoderState) (bytes : List UInt8) : Except DecodeError (List FrameTuple) × DecoderState :=
  let decoded := decodeFrames state bytes
  (decoded.1.map (·.map RawFrame.tuple),decoded.2)

def finish (state : DecoderState) : Except DecodeError Unit :=
  if state.buffer.isEmpty then .ok () else .error ⟨"the HTTP/2 frame is truncated",protocolError⟩

/-- The outcomes of a sequence of pushes. -/
def pushAll (state : DecoderState) : List (List UInt8) → List (Except DecodeError (List FrameTuple)) × DecoderState
  | [] => ([],state)
  | bytes::pieces =>
    let pushed := push state bytes
    let rest := pushAll pushed.2 pieces
    (pushed.1::rest.1,rest.2)

section

/-- What a stream starts with: a complete frame, a complete header that announces more than the limit, or
neither yet. -/
def nextFrame (limit : UInt32) (stream : List UInt8) : Next FrameTuple DecodeError :=
  if stream.length < 9 then .more
  else if limit < headerLength stream 0 then .stop oversizedFrame
  else if stream.length < 9+(headerLength stream 0).toNat then .more
  else .item (frameAt stream 0).tuple (9+(headerLength stream 0).toNat)

variable {stream : List UInt8}

theorem byteAt_append {i : ℕ} (hi : i < stream.length) (more : List UInt8) :
    byteAt (stream++more) i = byteAt stream i := by
  simp [byteAt,getElem?_append_left hi]

theorem headerLength_append (h : 9 ≤ stream.length) (more : List UInt8) :
    headerLength (stream++more) 0 = headerLength stream 0 := by
  simp only [headerLength]
  rw [byteAt_append (by omega),byteAt_append (by omega),byteAt_append (by omega)]

theorem frameAt_append (h : 9+(headerLength stream 0).toNat ≤ stream.length)
    (more : List UInt8) : frameAt (stream++more) 0 = frameAt stream 0 := by
  have hheader := headerLength_append (show 9 ≤ stream.length by omega) more
  simp only [frameAt,hheader]
  rw [byteAt_append (by omega),byteAt_append (by omega),byteAt_append (by omega),byteAt_append (by omega),
    byteAt_append (by omega),byteAt_append (by omega),drop_append_of_le_length (by omega),
    take_append_of_le_length (by simp only [length_drop]; omega)]

def frameParser (limit : UInt32) : StreamParser UInt8 FrameTuple DecodeError where
  next := nextFrame limit
  progress := by
    intro stream frame length h
    unfold nextFrame at h
    split at h <;> try cases h
    split at h <;> try cases h
    split at h <;> cases h
    omega
  stable := by
    intro stream more h
    unfold nextFrame at h ⊢
    split at h
    · exact absurd rfl h
    · next hnine =>
      have hheader := headerLength_append (show 9 ≤ stream.length by omega) more
      rw [if_neg (by simp only [length_append]; omega),hheader,if_neg hnine]
      split
      · rfl
      · next hlimit =>
        rw [if_neg hlimit] at h
        split at h
        · exact absurd rfl h
        · next hlength =>
          rw [if_neg (by simp only [length_append]; omega),if_neg hlength,frameAt_append (by omega)]

/-- The complete frames of a stream before the first header that announces more than the limit. -/
def completeFrames (limit : UInt32) (stream : List UInt8) : List FrameTuple := ((frameParser limit).parse stream).items

/-- The stream holds such a header, all of it. -/
def HeaderTooLarge (limit : UInt32) (stream : List UInt8) : Prop := ((frameParser limit).parse stream).error ≠ none

end

section

theorem byteAt_drop (buffer : List UInt8) (offset i : ℕ) :
    byteAt (buffer.drop offset) i = byteAt buffer (offset+i) := by
  simp [byteAt]

theorem headerLength_drop (buffer : List UInt8) (offset : ℕ) :
    headerLength (buffer.drop offset) 0 = headerLength buffer offset := by
  simp [headerLength,byteAt_drop]

theorem frameAt_drop (buffer : List UInt8) (offset : ℕ) : frameAt (buffer.drop offset) 0 = frameAt buffer offset := by
  simp [frameAt,byteAt_drop,headerLength_drop,drop_drop]

/-- What the loop computes from an offset on, against the frames of the stream there. -/
inductive Loops (buffer : List UInt8) (limit : UInt32) (offset : ℕ) (frames : List RawFrame) : Prop
  | stopped (error : DecodeError) (h : decodeLoop buffer limit offset frames = .error error)
    (hparse : ((frameParser limit).parse (buffer.drop offset)).error = some error)
  | ended (decoded : List RawFrame) (last : ℕ) (h : decodeLoop buffer limit offset frames = .ok (frames++decoded,last))
    (hparse : (frameParser limit).parse (buffer.drop offset) =
      ⟨decoded.map RawFrame.tuple,buffer.drop last,none⟩)

theorem decodeLoop_eq (buffer : List UInt8) (m : UInt32) (offset : ℕ) (frames : List RawFrame) :
    Loops buffer m offset frames := by
  induction offset, frames using decodeLoop.induct buffer m with
  | case1 offset _ hshort =>
    refine .ended [] offset ?_ (parse_more ?_)
    · rw [decodeLoop,if_pos hshort,append_nil]
    · exact if_pos (by simpa using hshort)
  | case2 _ _ hnine hlimit =>
    refine .stopped oversizedFrame ?_ ?_
    · rw [decodeLoop,if_neg hnine,if_pos hlimit]
    rw [parse_stop]
    show nextFrame m _ = _
    rw [nextFrame,if_neg (by simpa using hnine),headerLength_drop,if_pos hlimit]
  | case3 offset _ hnine hlimit hshort =>
    refine .ended [] offset ?_ (parse_more ?_)
    · rw [decodeLoop,if_neg hnine,if_neg hlimit,if_pos hshort,append_nil]
    · show nextFrame m _ = _
      rw [nextFrame,if_neg (by simpa using hnine),headerLength_drop,if_neg hlimit,if_pos (by simpa using hshort)]
  | case4 offset frames hnine hlimit hlen ih =>
    have hnext : (frameParser m).next (buffer.drop offset) =
        .item (frameAt buffer offset).tuple (9+(headerLength buffer offset).toNat) := by
      show nextFrame m _ = _
      rw [nextFrame,if_neg (by simpa using hnine),headerLength_drop,if_neg hlimit,
        if_neg (by simpa using hlen),frameAt_drop]
    have hloop : decodeLoop buffer m offset frames = decodeLoop buffer m
        (offset+(9+(headerLength buffer offset).toNat)) (frames++[frameAt buffer offset]) := by
      rw [decodeLoop,if_neg hnine,if_neg hlimit,if_neg hlen]
    cases ih with
    | stopped e h hparse => exact .stopped e (hloop.trans h) (by rw [parse_item hnext,drop_drop]; exact hparse)
    | ended decoded last h hparse =>
      refine .ended (frameAt buffer offset::decoded) last ?_ ?_
      · rw [hloop,h,append_assoc]
        rfl
      · rw [parse_item hnext,drop_drop,hparse]
        rfl

/-- A push of the decoder is a push of the parser of frames. -/
theorem push_eq (state : DecoderState) (bs : List UInt8) :
    push state bs = (((frameParser state.maximumFrameSize.1).push state.buffer bs).1,
      ⟨((frameParser state.maximumFrameSize.1).push state.buffer bs).2,state.maximumFrameSize⟩) := by
  cases decodeLoop_eq (state.buffer++bs) state.maximumFrameSize.1 0 [] with
  | stopped _ h hparse =>
    rw [drop_zero] at hparse
    simp only [push,decodeFrames,h,StreamParser.push,hparse]
    rfl
  | ended _ _ h hparse =>
    rw [drop_zero] at hparse
    simp only [push,decodeFrames,h,StreamParser.push,hparse]
    rfl

theorem pushAll_eq (state : DecoderState) (ps : List (List UInt8)) :
    pushAll state ps = (((frameParser state.maximumFrameSize.1).run state.buffer ps).1,
      ⟨((frameParser state.maximumFrameSize.1).run state.buffer ps).2,state.maximumFrameSize⟩) := by
  induction ps generalizing state with
  | nil => rfl
  | cons _ _ ih => simp only [pushAll,push_eq,ih,run]

theorem nextFrame_nil (m : UInt32) : (frameParser m).next [] = .more := rfl

end

section

/-- The frames a decoder with this limit takes. -/
def Sendable (limit : UInt32) (frame : FrameTuple) : Prop :=
  frame.1 < 256 ∧ frame.2.1 < 256 ∧ frame.2.2.1 < 2 ^ 31 ∧ frame.2.2.2.length ≤ limit.toNat

def encodeFrames : List FrameTuple → Except String (List UInt8)
  | [] => .ok []
  | frame::frames => do return (← encodeFrame frame)++(← encodeFrames frames)

theorem fromBeBytes_toBeBytes (n : UInt32) :
    fromBeBytes (UInt8.ofNat (n.toNat / 256 ^ 3)) (UInt8.ofNat (n.toNat / 256 ^ 2)) (UInt8.ofNat (n.toNat / 256))
      (UInt8.ofNat n.toNat) = n := by
  have hlt := n.toNat_lt
  apply UInt32.toNat_inj.mp
  simp only [fromBeBytes,UInt8.toNat_ofNat',UInt32.toNat_ofNat']
  omega

theorem fromBeBytes_zero {n : UInt32} (h : n.toNat < 2 ^ 24) :
    fromBeBytes 0 (UInt8.ofNat (n.toNat / 256 ^ 2)) (UInt8.ofNat (n.toNat / 256)) (UInt8.ofNat n.toNat) = n := by
  have hz : (0 : UInt8) = UInt8.ofNat (n.toNat / 256 ^ 3) := by
    rw [Nat.div_eq_of_lt (by omega)]
    rfl
  rw [hz,fromBeBytes_toBeBytes]

/-- The bytes of a header. -/
def headerBytes (kind flags stream : UInt64) (length : UInt32) : List UInt8 :=
  (toBeBytes length).drop 1++[kind.toUInt8,flags.toUInt8]++toBeBytes stream.toUInt32

theorem length_headerBytes (kind flags stream : UInt64) (n : UInt32) :
    (headerBytes kind flags stream n).length = 9 := rfl

variable {m : FrameSize}

theorem length_le_of_sendable {f : FrameTuple} (h : Sendable m.1 f) : f.2.2.2.length < 2 ^ 24 := by
  have hlimit : m.1.toNat ≤ 0xffffff := UInt32.le_iff_toNat_le.mp m.2
  have hpayload := h.2.2.2
  omega

variable {flags kind stream : UInt64} {p : List UInt8}

theorem encodeFrame_eq (h : Sendable m.1 (kind,flags,stream,p)) : encodeFrame (kind,flags,stream,p) =
      .ok (headerBytes kind flags stream (UInt32.ofNat p.length)++p) := by
  have hlen := length_le_of_sendable h
  obtain ⟨hk,hflags,hstream,-⟩ := h
  have hstream' : ¬ maximumStreamId.toUInt64 < stream := by
    rw [lt_iff_toNat_lt] at hstream ⊢
    have hmax : maximumStreamId.toUInt64.toNat = 2 ^ 31-1 := rfl
    have htop : ((2 : UInt64) ^ 31).toNat = 2 ^ 31 := rfl
    simp only at hstream
    omega
  have hpayload : ¬ maximumFrameSize.toNat < p.length := by
    have hmax : maximumFrameSize.toNat = 2 ^ 24-1 := rfl
    simp only at hlen
    omega
  rw [encodeFrame,if_neg (UInt64.not_le.mpr hk),if_neg (UInt64.not_le.mpr hflags),if_neg hstream',
    if_neg hpayload]
  rfl

theorem toUInt8_toUInt64 {n : UInt64} (h : n < 256) : n.toUInt8.toUInt64 = n := by
  apply UInt64.toNat_inj.mp
  have hlt : n.toNat < 256 := UInt64.lt_iff_toNat_lt.mp h
  simp only [UInt8.toNat_toUInt64,toNat_toUInt8]
  omega

/-- The reserved bit of a stream identifier below `2 ^ 31` is clear. -/
theorem stream_eq (h : stream < 2 ^ 31) : (stream.toUInt32 &&& 0x7fffffff).toUInt64 = stream := by
  apply UInt64.toNat_inj.mp
  have hlt : stream.toNat < 2 ^ 31 := UInt64.lt_iff_toNat_lt.mp h
  have hmask : (0x7fffffff : UInt32).toNat = 2 ^ 31-1 := rfl
  rw [UInt32.toNat_toUInt64,UInt32.toNat_and,hmask,Nat.and_two_pow_sub_one_eq_mod,toNat_toUInt32]
  omega

/-- An encoded frame is the next frame of any stream it starts. -/
theorem nextFrame_encoded (h : Sendable m.1 (kind,flags,stream,p)) (more : List UInt8) :
    nextFrame m.1 (headerBytes kind flags stream (UInt32.ofNat p.length)++p++more) =
      .item (kind,flags,stream,p) (9+p.length) := by
  have hlen := length_le_of_sendable h
  obtain ⟨hk,hflags,hstream,hpayload⟩ := h
  simp only at hlen hpayload hk hflags hstream
  have htoNat : (UInt32.ofNat p.length).toNat = p.length := UInt32.toNat_ofNat_of_lt' (by
    show p.length < 2 ^ 32
    omega)
  have hheader : headerLength (headerBytes kind flags stream (UInt32.ofNat p.length)++p++more) 0 =
      UInt32.ofNat p.length := fromBeBytes_zero (by omega)
  have hframe : (frameAt (headerBytes kind flags stream (UInt32.ofNat p.length)++p++more) 0).tuple =
      (kind,flags,stream,p) := by
    refine Prod.ext (toUInt8_toUInt64 hk) (Prod.ext (toUInt8_toUInt64 hflags) (Prod.ext ?_ ?_))
    · exact (congrArg (fun n : UInt32 => (n &&& 0x7fffffff).toUInt64) (fromBeBytes_toBeBytes stream.toUInt32)).trans
        (stream_eq hstream)
    · simp only [frameAt,RawFrame.tuple,hheader,htoNat]
      exact take_left
  rw [nextFrame,if_neg (by simp [length_headerBytes]),hheader,if_neg ?_,if_neg ?_,hframe,htoNat]
  · rw [htoNat]
    simp [length_headerBytes]
  · rw [UInt32.lt_iff_toNat_lt,htoNat]
    omega

theorem parse_encoded (frames : List FrameTuple) (h : ∀ f ∈ frames, Sendable m.1 f) :
    ∃ bs, encodeFrames frames = .ok bs ∧ (frameParser m.1).parse bs = ⟨frames,[],none⟩ := by
  induction frames with
  | nil => exact ⟨[],rfl,parse_more (nextFrame_nil _)⟩
  | cons f _ ih =>
    obtain ⟨hframe,hframes⟩ := forall_mem_cons.mp h
    obtain ⟨bs,hbytes,hparse⟩ := ih hframes
    obtain ⟨kind,flags,stream,p⟩ := f
    refine ⟨_,by rw [encodeFrames,encodeFrame_eq hframe,hbytes]; rfl,?_⟩
    have hd : (headerBytes kind flags stream (UInt32.ofNat p.length)++p++bs).drop
        (9+p.length) = bs := drop_left' (by simp [length_headerBytes])
    rw [parse_item (nextFrame_encoded hframe bs),hd,hparse]

theorem parse_of_encoded {frames : List FrameTuple} {bs : List UInt8}
    (h : ∀ f ∈ frames, Sendable m.1 f) (hencoded : encodeFrames frames = .ok bs) :
    (frameParser m.1).parse bs = ⟨frames,[],none⟩ := by
  obtain ⟨bs',hbytes,hparse⟩ := parse_encoded frames h
  cases hbytes.symm.trans hencoded
  exact hparse

end

section

/-- The frames of a stream are delivered the same however it is cut, and a push fails exactly when the header
that announces too much is complete, except that a failing push drops the frames it has completed itself. Encoded
frames in any pieces come back, and nothing of them is left. -/
theorem frame_decoding (limit : FrameSize) (pieces : List (List UInt8)) :
    (∀ n outcome, (pushAll ⟨[],limit⟩ pieces).1[n]? = some outcome →
      ((∃ error, outcome = .error error) ↔ HeaderTooLarge limit.1 (seen pieces (n+1)))) ∧
    (delivered (pushAll ⟨[],limit⟩ pieces).1 = completeFrames limit.1 pieces.flatten ↔
      StopsAlone (frameParser limit.1) pieces) ∧
    ∀ frames : List FrameTuple, (∀ frame ∈ frames, Sendable limit.1 frame) →
      encodeFrames frames = .ok pieces.flatten →
      (∀ outcome ∈ (pushAll ⟨[],limit⟩ pieces).1, ∃ delivered, outcome = .ok delivered) ∧
        delivered (pushAll ⟨[],limit⟩ pieces).1 = frames ∧ finish (pushAll ⟨[],limit⟩ pieces).2 = .ok () := by
  simp only [pushAll_eq]
  refine ⟨fun n outcome hn => fails_iff (nextFrame_nil _) pieces hn,delivered_iff (nextFrame_nil _) pieces,?_⟩
  intro frames hframes hencoded
  have hparse := parse_of_encoded hframes hencoded
  refine ⟨fun outcome houtcome => ?_,?_,?_⟩
  · obtain ⟨n,hn⟩ := getElem?_of_mem houtcome
    rcases run_reports (buffers_nil (nextFrame_nil _)) pieces hn with ⟨items,rfl,-⟩ | ⟨error,-,hbehind⟩
    · exact ⟨items,rfl⟩
    · exact absurd (error_flatten hbehind) (by simp [hparse])
  · rw [(delivered_iff (nextFrame_nil _) pieces).mpr ?_,hparse]
    intro n _ _ herror
    exact absurd (error_flatten herror) (by simp [hparse])
  · rcases run_buffers (buffers_nil (nextFrame_nil limit.1)) pieces with ⟨-,hbuffer⟩ | ⟨herror,-⟩
    · rw [nil_append,hparse] at hbuffer
      rw [hbuffer]
      rfl
    · exact absurd hparse (by rintro h; simp [h] at herror)

theorem frame_decoding_pieces :
    delivered (pushAll ⟨[],⟨16384,by decide⟩⟩ [[0,0,1,0],[0,0,0,0,1],[7]]).1 = [(0,0,1,[7])] :=
  ((frame_decoding ⟨16384,by decide⟩ [[0,0,1,0],[0,0,0,0,1],[7]]).2.2 [(0,0,1,[7])]
    (by simp only [mem_singleton,forall_eq]; exact ⟨by decide,by decide,by decide,by decide⟩) rfl).2.1

/-- An empty frame, and a header that announces one byte. -/
def emptyFrame : List UInt8 := [0,0,0,0,0,0,0,0,0]
def oneByteHeader : List UInt8 := [0,0,1,0,0,0,0,0,0]

theorem parse_oneByteHeader : (frameParser 0).parse oneByteHeader = ⟨[],oneByteHeader,some oversizedFrame⟩ :=
  parse_stop rfl

theorem parse_emptyFrame : (frameParser 0).parse emptyFrame = ⟨[(0,0,0,[])],[],none⟩ := by
  have hnext : (frameParser 0).next emptyFrame = .item (0,0,0,[]) 9 := rfl
  rw [parse_item hnext,show emptyFrame.drop 9 = [] from rfl,parse_more (nextFrame_nil 0)]

theorem parse_both : (frameParser 0).parse (emptyFrame++oneByteHeader) =
    ⟨[(0,0,0,[])],oneByteHeader,some oversizedFrame⟩ := by
  rw [parse_append (by rw [parse_emptyFrame]),parse_emptyFrame]
  simp [parse_oneByteHeader]

/-- A frame and an oversized header in two pushes deliver the frame; in one push nothing is delivered. -/
theorem failing_push_drops_frame : completeFrames 0 (emptyFrame++oneByteHeader) = [(0,0,0,[])] ∧
    delivered (pushAll ⟨[],⟨0,by decide⟩⟩ [emptyFrame,oneByteHeader]).1 = [(0,0,0,[])] ∧
    delivered (pushAll ⟨[],⟨0,by decide⟩⟩ [emptyFrame++oneByteHeader]).1 = [] := by
  refine ⟨by rw [completeFrames,parse_both],?_,?_⟩ <;> rw [pushAll_eq]
  · simp [run,StreamParser.push,parse_emptyFrame,parse_oneByteHeader,delivered]
  · simp [run,StreamParser.push,parse_both,delivered]

end


end Whim.FrameDecoder
