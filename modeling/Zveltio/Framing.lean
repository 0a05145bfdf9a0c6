import Zveltio.Codecs
namespace Zveltio.Framing
open Codecs (Bytes)

-- Frames of a byte stream: a length of four bytes, big-endian, and that many bytes.
def header (size : Nat) : Bytes :=
  [UInt8.ofNat (size / 16777216),UInt8.ofNat (size / 65536 % 256),UInt8.ofNat (size / 256 % 256),UInt8.ofNat (size % 256)]

def frame (body : Bytes) : Bytes := header body.length ++ body

def uint32 : Bytes → Nat
  | a::b::c::d::_ => ((a.toNat * 256 + b.toNat) * 256 + c.toNat) * 256 + d.toNat
  | _ => 0

section
variable {μ : Type u} (limit : Nat) (decode : Bytes → Option μ)

-- The messages of all whole frames, and what is left; none where a frame is too long or says nothing.
def drain (bytes : Bytes) : Option (List μ × Bytes) :=
  if bytes.length < 4 then some ([],bytes)
  else if limit < uint32 bytes then none
  else if bytes.length - 4 < uint32 bytes then some ([],bytes)
  else do
    let message ← decode ((bytes.drop 4).take (uint32 bytes))
    let (later,rest) ← drain (bytes.drop (4 + uint32 bytes))
    some (message::later,rest)
  termination_by bytes.length
  decreasing_by
    rw [List.length_drop]
    omega

-- A reader that is given the stream in chunks and holds what makes no frame yet.
def receive (held : Bytes) : List Bytes → Option (List μ × Bytes)
  | [] => some ([],held)
  | chunk::rest => do
    let (messages,held) ← drain limit decode (held ++ chunk)
    let (later,held) ← receive held rest
    some (messages ++ later,held)

theorem uint32_append (long : 4 ≤ bytes.length) (more : Bytes) : uint32 (bytes ++ more) = uint32 bytes := by
  match bytes with
  | _::_::_::_::_ => rfl

theorem uint32_header (small : size < 4294967296) (rest : Bytes) : uint32 (header size ++ rest) = size := by
  simp only [header,List.cons_append,List.nil_append,uint32,UInt8.toNat_ofNat']
  omega

variable {limit decode}

-- Bytes that make no frame yet are kept as they are.
def Settled (limit : Nat) (bytes : Bytes) : Prop :=
  bytes.length < 4 ∨ ¬limit < uint32 bytes ∧ bytes.length - 4 < uint32 bytes

theorem drain_settled (settled : Settled limit bytes) : drain limit decode bytes = some ([],bytes) := by
  rw [drain]
  rcases settled with short | ⟨fits,part⟩
  · rw [if_pos short]
  · rw [if_neg fits,if_pos part,ite_self]

theorem drain_rest (drained : drain limit decode bytes = some (messages,rest)) : Settled limit rest := by
  fun_induction drain limit decode bytes generalizing messages rest with
  | case1 bytes short =>
    cases drained
    exact .inl short
  | case2 bytes long large => cases drained
  | case3 bytes long fits part =>
    cases drained
    exact .inr ⟨fits,part⟩
  | case4 bytes long fits whole ih =>
    obtain ⟨message,_,drained⟩ := Option.bind_eq_some_iff.mp drained
    obtain ⟨⟨later,last⟩,found,drained⟩ := Option.bind_eq_some_iff.mp drained
    cases drained
    exact ih found

theorem drain_append (bytes more : Bytes) : drain limit decode (bytes ++ more) = (drain limit decode bytes).bind fun front =>
    (drain limit decode (front.2 ++ more)).map fun back => (front.1 ++ back.1,back.2) := by
  fun_induction drain limit decode bytes with
  | case1 bytes short => simp
  | case2 bytes long large =>
    have size := uint32_append (Nat.not_lt.mp long) more
    rw [drain,if_neg (by rw [List.length_append]; omega),size,if_pos large]
    rfl
  | case3 bytes long fits part => simp
  | case4 bytes long fits whole ih =>
    have size := uint32_append (Nat.not_lt.mp long) more
    have body : ((bytes ++ more).drop 4).take (uint32 bytes) = (bytes.drop 4).take (uint32 bytes) := by
      rw [List.drop_append_of_le_length (by omega),List.take_append_of_le_length (by rw [List.length_drop]; omega)]
    have behind : (bytes ++ more).drop (4 + uint32 bytes) = bytes.drop (4 + uint32 bytes) ++ more :=
      List.drop_append_of_le_length (by omega)
    rw [drain,if_neg (by rw [List.length_append]; omega),size,if_neg fits,
      if_neg (by rw [List.length_append]; omega),body,behind,ih]
    cases decode ((bytes.drop 4).take (uint32 bytes)) with
    | none => rfl
    | some message =>
      cases drain limit decode (bytes.drop (4 + uint32 bytes)) with
      | none => rfl
      | some front =>
        obtain ⟨later,rest⟩ := front
        cases drained : drain limit decode (rest ++ more) <;> simp [drained]

theorem receive_flatten (settled : Settled limit held) (chunks : List Bytes) :
    receive limit decode held chunks = drain limit decode (held ++ chunks.flatten) := by
  induction chunks generalizing held with
  | nil => rw [receive,List.flatten_nil,List.append_nil,drain_settled settled]
  | cons chunk rest ih =>
    rw [receive,List.flatten_cons,← List.append_assoc,drain_append (held ++ chunk)]
    cases drained : drain limit decode (held ++ chunk) with
    | none => rfl
    | some front =>
      obtain ⟨messages,kept⟩ := front
      simp only [Option.bind_eq_bind,Option.bind_some,ih (drain_rest drained)]
      cases drain limit decode (kept ++ rest.flatten) <;> rfl

theorem drain_frames (bounded : limit < 4294967296) {bodies : List Bytes} {messages : List μ}
    (read : List.Forall₂ (fun body message => body.length ≤ limit ∧ decode body = some message) bodies messages) :
    drain limit decode (bodies.map frame).flatten = some (messages,[]) := by
  induction read with
  | nil => exact drain_settled (.inl (by decide))
  | @cons body message bodies messages here _ ih =>
    obtain ⟨fits,found⟩ := here
    have size : uint32 (frame body ++ (bodies.map frame).flatten) = body.length := by
      rw [frame,List.append_assoc,uint32_header (by omega)]
    have four : (header body.length).length = 4 := rfl
    have whole : (frame body ++ (bodies.map frame).flatten).length = 4 + body.length + (bodies.map frame).flatten.length := by
      rw [List.length_append,frame,List.length_append,four]
    have inside : ((frame body ++ (bodies.map frame).flatten).drop 4).take body.length = body := by
      rw [frame,List.append_assoc,List.drop_left' four,List.take_left]
    have behind : (frame body ++ (bodies.map frame).flatten).drop (4 + body.length) = (bodies.map frame).flatten :=
      List.drop_left' (by rw [frame,List.length_append,four])
    rw [List.map_cons,List.flatten_cons,drain,size,if_neg (by omega),if_neg (by omega),if_neg (by omega),inside,behind,found,ih]
    rfl

end

end Zveltio.Framing
