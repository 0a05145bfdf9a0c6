import Zveltio.Framing
import Zveltio.TaggedValues
namespace Zveltio.ExtensionFrames
open Doubles (Double)
open JsValues
open Codecs (Bytes)
open TextCoding (utf8 textDecoder)
open Framing
open TaggedValues (Leaf Message Plain encode decode)

def MAX_FRAME_BYTES : Nat := 32 * 1024 * 1024

-- none is the FrameTooLargeError.
def encodeFrame (msg : Message) : Option Bytes :=
  if MAX_FRAME_BYTES < (utf8 (encode msg)).length then none else some (frame (utf8 (encode msg)))

-- JSON.parse(decoder.decode(body), reviver)
def payload (body : Bytes) : Option Message := decode (textDecoder body)

def subarray (buf : Bytes) (start stop : Nat) : Bytes := (buf.take stop).drop start

-- buf.set(chunk, start)
def place (buf chunk : Bytes) (start : Nat) : Bytes := buf.take start ++ chunk ++ buf.drop (start + chunk.length)

-- buf.copyWithin(0, start, stop)
def copyWithin (buf : Bytes) (start stop : Nat) : Bytes := subarray buf start stop ++ buf.drop (stop - start)

def doubled (cap need : Nat) (room : 0 < cap) : Nat :=
  if cap < need then doubled (cap * 2) need (Nat.mul_pos room (by decide)) else cap
  termination_by need - cap

structure FrameDecoder where
  buf : Bytes
  len : Nat
  room : 0 < buf.length
  within : len ≤ buf.length

def fresh : FrameDecoder := ⟨List.replicate (64 * 1024) 0,0,by rw [List.length_replicate]; decide,Nat.zero_le _⟩

def FrameDecoder.held (decoder : FrameDecoder) : Bytes := subarray decoder.buf 0 decoder.len

theorem place_length (fits : start + chunk.length ≤ buf.length) : (place buf chunk start).length = buf.length := by
  simp only [place,List.length_append,List.length_take,List.length_drop]
  omega

theorem subarray_length (within : stop ≤ buf.length) : (subarray buf start stop).length = stop - start := by
  rw [subarray,List.length_drop,List.length_take,Nat.min_eq_left within]

theorem copyWithin_length (within : stop ≤ buf.length) : (copyWithin buf start stop).length = buf.length := by
  rw [copyWithin,List.length_append,subarray_length within,List.length_drop]
  omega

theorem doubled_enough (cap need : Nat) (room : 0 < cap) : cap ≤ doubled cap need room ∧ need ≤ doubled cap need room := by
  fun_induction doubled cap need room with
  | case1 cap room _ ih => exact ⟨by omega,ih.2⟩
  | case2 cap room enough => exact ⟨Nat.le_refl cap,Nat.not_lt.mp enough⟩

-- The buffer grows by doubling, to a copy of what it held.
def grown (decoder : FrameDecoder) (need : Nat) : Bytes :=
  if decoder.buf.length < need then
    place (List.replicate (doubled decoder.buf.length need decoder.room) 0) decoder.held 0
  else decoder.buf

theorem grown_room (decoder : FrameDecoder) (need : Nat) :
    decoder.buf.length ≤ (grown decoder need).length ∧ need ≤ (grown decoder need).length := by
  obtain ⟨above,enough⟩ := doubled_enough decoder.buf.length need decoder.room
  have size : decoder.held.length = decoder.len := subarray_length decoder.within
  have within := decoder.within
  unfold grown
  split
  · rw [place_length (by rw [List.length_replicate]; omega),List.length_replicate]
    exact ⟨above,enough⟩
  · next large => exact ⟨Nat.le_refl _,Nat.not_lt.mp large⟩

def written (decoder : FrameDecoder) (chunk : Bytes) : FrameDecoder where
  buf := place (grown decoder (decoder.len + chunk.length)) chunk decoder.len
  len := decoder.len + chunk.length
  room := by
    obtain ⟨above,enough⟩ := grown_room decoder (decoder.len + chunk.length)
    rw [place_length enough]
    exact Nat.lt_of_lt_of_le decoder.room above
  within := by
    obtain ⟨above,enough⟩ := grown_room decoder (decoder.len + chunk.length)
    rw [place_length enough]
    exact enough

-- The whole frames from at on, and where the scan stopped; none where a frame is too long or makes no message.
def scan (buf : Bytes) (len start : Nat) : Option (List Message × Nat) :=
  if len - start < 4 then some ([],start)
  else
    let size := uint32 (subarray buf start (start + 4))
    if MAX_FRAME_BYTES < size then none
    else if len - start - 4 < size then some ([],start)
    else do
      let message ← payload (subarray buf (start + 4) (start + 4 + size))
      let (later,stop) ← scan buf len (start + 4 + size)
      some (message::later,stop)
  termination_by len - start

def shifted (decoder : FrameDecoder) (start : Nat) : FrameDecoder where
  buf := copyWithin decoder.buf start decoder.len
  len := decoder.len - start
  room := by
    rw [copyWithin_length decoder.within]
    exact decoder.room
  within := by
    rw [copyWithin_length decoder.within]
    exact Nat.le_trans (Nat.sub_le ..) decoder.within

def push (decoder : FrameDecoder) (chunk : Bytes) : Option (List Message × FrameDecoder) := do
  let decoder := written decoder chunk
  let (out,start) ← scan decoder.buf decoder.len 0
  some (out,shifted decoder start)

-- What push returns over all chunks, in turn.
def pushes (decoder : FrameDecoder) : List Bytes → Option (List Message × FrameDecoder)
  | [] => some ([],decoder)
  | chunk::rest => do
    let (out,decoder) ← push decoder chunk
    let (later,decoder) ← pushes decoder rest
    some (out ++ later,decoder)

theorem fresh_held : fresh.held = [] := rfl

theorem place_front (fits : start + chunk.length ≤ buf.length) :
    subarray (place buf chunk start) 0 (start + chunk.length) = subarray buf 0 start ++ chunk := by
  have front : (buf.take start ++ chunk).length = start + chunk.length := by
    rw [List.length_append,List.length_take,Nat.min_eq_left (by omega)]
  rw [subarray,subarray,List.drop_zero,List.drop_zero,place,List.take_left' front]

theorem grown_held (decoder : FrameDecoder) (need : Nat) : subarray (grown decoder need) 0 decoder.len = decoder.held := by
  have size : decoder.held.length = decoder.len := subarray_length decoder.within
  have within := decoder.within
  obtain ⟨above,_⟩ := doubled_enough decoder.buf.length need decoder.room
  unfold grown
  split
  · have fits : 0 + decoder.held.length ≤ (List.replicate (doubled decoder.buf.length need decoder.room) (0 : UInt8)).length := by
      rw [List.length_replicate]
      omega
    have front := place_front fits
    rwa [Nat.zero_add,size] at front
  · rfl

theorem written_held (decoder : FrameDecoder) (chunk : Bytes) : (written decoder chunk).held = decoder.held ++ chunk := by
  obtain ⟨_,enough⟩ := grown_room decoder (decoder.len + chunk.length)
  rw [FrameDecoder.held,written,place_front enough,grown_held]

theorem shifted_held (decoder : FrameDecoder) (start : Nat) : (shifted decoder start).held = subarray decoder.buf start decoder.len :=
  List.take_left' (subarray_length decoder.within)

theorem subarray_take (inside : start + size ≤ stop) : subarray buf start (start + size) = (subarray buf start stop).take size := by
  rw [subarray,subarray,List.take_drop,List.take_take,Nat.min_eq_left inside]

theorem subarray_drop (buf : Bytes) (start stop more : Nat) : (subarray buf start stop).drop more = subarray buf (start + more) stop := by
  rw [subarray,subarray,List.drop_drop]

theorem uint32_take (long : 4 ≤ bytes.length) : uint32 (bytes.take 4) = uint32 bytes := by
  have four : 4 ≤ (bytes.take 4).length := by
    rw [List.length_take]
    omega
  have same := uint32_append four (bytes.drop 4)
  rw [List.take_append_drop] at same
  exact same.symm

theorem scan_drain (within : len ≤ buf.length) (start : Nat) :
    (scan buf len start).map (fun found => (found.1,subarray buf found.2 len)) =
      drain MAX_FRAME_BYTES payload (subarray buf start len) := by
  have length : ∀ start, (subarray buf start len).length = len - start := fun _ => subarray_length within
  have named : ∀ start, ¬len - start < 4 → uint32 (subarray buf start (start + 4)) = uint32 (subarray buf start len) := by
    intro start long
    rw [subarray_take (by omega : start + 4 ≤ len),uint32_take (by rw [length]; omega)]
  fun_induction scan buf len start with
  | case1 start short =>
    rw [drain,length,if_pos short]
    rfl
  | case2 start long size large =>
    rw [drain,length,if_neg long,← named start long,if_pos large]
    rfl
  | case3 start long size fits part =>
    rw [drain,length,if_neg long,← named start long,if_neg fits,if_pos part]
    rfl
  | case4 start long size fits whole ih =>
    have body : ((subarray buf start len).drop 4).take size = subarray buf (start + 4) (start + 4 + size) := by
      rw [subarray_drop,subarray_take (by omega : start + 4 + size ≤ len)]
    have behind : (subarray buf start len).drop (4 + size) = subarray buf (start + 4 + size) len := by
      rw [subarray_drop,Nat.add_assoc]
    rw [drain,length,if_neg long,← named start long,if_neg fits,if_neg whole,body,behind,← ih]
    cases payload (subarray buf (start + 4) (start + 4 + size)) with
    | none => rfl
    | some message => cases scan buf len (start + 4 + size) <;> rfl

-- A push reads the frames of what it held and the chunk, and holds the rest.
theorem push_drain (decoder : FrameDecoder) (chunk : Bytes) :
    (push decoder chunk).map (fun pushed => (pushed.1,pushed.2.held)) =
      drain MAX_FRAME_BYTES payload (decoder.held ++ chunk) := by
  have scanned := scan_drain (written decoder chunk).within 0
  rw [← FrameDecoder.held,written_held] at scanned
  rw [← scanned,push]
  cases scan (written decoder chunk).buf (written decoder chunk).len 0 with
  | none => rfl
  | some found => exact congrArg (fun held => some (found.1,held)) (shifted_held _ _)

theorem pushes_receive (decoder : FrameDecoder) (chunks : List Bytes) :
    (pushes decoder chunks).map (fun pushed => (pushed.1,pushed.2.held)) =
      receive MAX_FRAME_BYTES payload decoder.held chunks := by
  induction chunks generalizing decoder with
  | nil => rfl
  | cons chunk rest ih =>
    rw [receive,← push_drain,pushes]
    cases push decoder chunk with
    | none => rfl
    | some pushed =>
      obtain ⟨out,next⟩ := pushed
      simp only [Option.bind_eq_bind,Option.bind_some,Option.map_some,← ih next]
      cases pushes next rest <;> rfl

theorem payload_encoded (message : Message) (plain : Plain message) :
    payload (utf8 (encode message)) = some (message.map Leaf.plain) := by
  have decoded := TaggedValues.decode_encode message plain
  have unmarked : (encode message).head? ≠ some TextCoding.mark := by
    intro first
    obtain ⟨rest,shown⟩ := List.head?_eq_some_iff.mp first
    rw [decode,shown,TaggedValues.parse_marked] at decoded
    cases decoded
  rw [payload,TextCoding.textDecoder_utf8 unmarked,decoded]

theorem encodeFrame_some (framed : encodeFrame message = some bytes) :
    (utf8 (encode message)).length ≤ MAX_FRAME_BYTES ∧ bytes = frame (utf8 (encode message)) := by
  unfold encodeFrame at framed
  split at framed
  · cases framed
  · next fits => exact ⟨Nat.not_lt.mp fits,(Option.some.inj framed).symm⟩

theorem frames_drained {messages : List Message} {frames : List Bytes} (plain : ∀ message ∈ messages, Plain message)
    (framed : messages.mapM encodeFrame = some frames) :
    drain MAX_FRAME_BYTES payload frames.flatten = some (messages.map (Data.map Leaf.plain),[]) := by
  have bodies : ∃ bodies, frames = bodies.map frame ∧ List.Forall₂
      (fun body message => body.length ≤ MAX_FRAME_BYTES ∧ payload body = some message) bodies (messages.map (Data.map Leaf.plain)) := by
    induction messages generalizing frames with
    | nil =>
      cases framed
      exact ⟨[],rfl,.nil⟩
    | cons message rest ih =>
      rw [List.mapM_cons] at framed
      obtain ⟨bytes,first,framed⟩ := Option.bind_eq_some_iff.mp framed
      obtain ⟨others,behind,framed⟩ := Option.bind_eq_some_iff.mp framed
      cases framed
      obtain ⟨fits,rfl⟩ := encodeFrame_some first
      obtain ⟨bodies,rfl,read⟩ := ih (fun other held => plain other (List.mem_cons_of_mem _ held)) behind
      exact ⟨utf8 (encode message)::bodies,rfl,.cons ⟨fits,payload_encoded message (plain message (List.mem_cons_self ..))⟩ read⟩
  obtain ⟨bodies,rfl,read⟩ := bodies
  exact drain_frames (by decide) read

theorem messages_same (messages : List Message) :
    messages.map (Data.map Leaf.plain) = messages ↔ ∀ message ∈ messages, message.Each Leaf.Unsigned := by
  conv_lhs => rw [← List.map_id messages,List.map_map,List.map_inj_left]
  exact forall₂_congr fun message _ => map_same TaggedValues.plain_unsigned message

theorem pushes_frames {messages : List Message} {frames chunks : List Bytes} (plain : ∀ message ∈ messages, Plain message)
    (framed : messages.mapM encodeFrame = some frames) (cut : chunks.flatten = frames.flatten) :
    ∃ last, pushes fresh chunks = some (messages.map (Data.map Leaf.plain),last) ∧ last.len = 0 := by
  have received := pushes_receive fresh chunks
  rw [fresh_held,receive_flatten (.inl (by decide)),List.nil_append,cut,frames_drained plain framed] at received
  obtain ⟨⟨out,last⟩,ran,same⟩ := Option.map_eq_some_iff.mp received
  obtain ⟨rfl,empty⟩ := Prod.mk.inj same
  have size : last.held.length = last.len := subarray_length last.within
  exact ⟨last,ran,by rw [← size,empty,List.length_nil]⟩

-- However the frames are cut, a decoder returns the messages in order and holds nothing; only a zero
-- loses its sign.
theorem pushes_messages (messages : List Message) (frames chunks : List Bytes) (plain : ∀ message ∈ messages, Plain message)
    (framed : messages.mapM encodeFrame = some frames) (cut : chunks.flatten = frames.flatten) :
    (∃ last, pushes fresh chunks = some (messages.map (Data.map Leaf.plain),last) ∧ last.len = 0) ∧
      ((∃ last, pushes fresh chunks = some (messages,last) ∧ last.len = 0) ↔ ∀ message ∈ messages, message.Each Leaf.Unsigned) := by
  have returned := pushes_frames plain framed cut
  refine ⟨returned,?_⟩
  obtain ⟨last,ran,settled⟩ := returned
  rw [← messages_same,ran]
  constructor
  · rintro ⟨_,same,_⟩
    exact (Prod.mk.inj (Option.some.inj same)).1
  · intro unchanged
    exact ⟨last,by rw [unchanged],settled⟩

theorem marked_encoded : encode (.object [(TaggedValues.TAG,.leaf .null)]) =
    "\x7b\"$zv\":\"object\",\"v\":[[\"$zv\",null]]\x7d".toList := by decide +kernel

-- An object that carries the tag, its header cut in two.
theorem pushes_marked : ∃ last, pushes fresh [[0,0],[],[0,35] ++ utf8 (encode (.object [(TaggedValues.TAG,.leaf .null)]))] =
    some ([.object [(TaggedValues.TAG,.leaf .null)]],last) ∧ last.len = 0 := by
  have size : (utf8 (encode (.object [(TaggedValues.TAG,.leaf .null)]))).length = 35 := by
    rw [marked_encoded]
    decide +kernel
  have framed : [Data.object [(TaggedValues.TAG,Data.leaf Leaf.null)]].mapM encodeFrame =
      some [frame (utf8 (encode (.object [(TaggedValues.TAG,.leaf .null)])))] := by
    rw [List.mapM_cons,encodeFrame,size,if_neg (by decide)]
    rfl
  have owned : Data.Owned (Data.object [(TaggedValues.TAG,Data.leaf Leaf.null)]) :=
    ⟨TaggedValues.create_tag _,trivial,trivial⟩
  refine (pushes_messages _ _ _ (List.forall_mem_singleton.mpr ⟨owned,trivial,trivial⟩) framed ?_).2.mpr
    (List.forall_mem_singleton.mpr ⟨trivial,trivial⟩)
  rw [List.flatten_singleton,frame,size]
  rfl

def negativeZero : Double := ⟨true,0,le_refl 0,Doubles.nearest_zero,by positivity⟩

-- A zero comes back without its sign.
theorem pushes_zero : [Data.leaf (Leaf.number (.finite negativeZero))].mapM encodeFrame = some [[0,0,0,1,48]] ∧
    ∀ last, pushes fresh [[0,0,0,1,48]] ≠ some ([.leaf (.number (.finite negativeZero))],last) := by
  have shown : encode (.leaf (.number (.finite negativeZero))) = ['0'] := by
    have zero : negativeZero.size = 0 := rfl
    change negativeZero.text = ['0']
    rw [Double.text,if_pos zero]
  have framed : [Data.leaf (Leaf.number (.finite negativeZero))].mapM encodeFrame = some [[0,0,0,1,48]] := by
    rw [List.mapM_cons,encodeFrame,shown]
    decide +kernel
  have plain : ∀ message ∈ [Data.leaf (Leaf.number (.finite negativeZero))], Plain message :=
    List.forall_mem_singleton.mpr ⟨trivial,trivial⟩
  refine ⟨framed,fun last same => ?_⟩
  obtain ⟨other,ran,_⟩ := pushes_frames plain framed rfl
  rw [same] at ran
  have unsigned := (messages_same _).mp (Prod.mk.inj (Option.some.inj ran)).1.symm
  exact absurd (unsigned _ (List.mem_singleton.mpr rfl) rfl) (by decide)

end Zveltio.ExtensionFrames
