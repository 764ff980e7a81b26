import KedrAux.Lib.ByteOrder
import KedrAux.TraceUdp.EventsSender

/-!
# Messages of the trace server as datagrams

The server fills the structure of a message in its own memory and sends its bytes; the client
receives them into a buffer of a fixed size and reads the fields of the same structure.  The two
programs may run on hosts of different byte order.
-/

namespace KedrAux
namespace TraceUdp

open LittleEndian (Byte overwrite)
open ByteOrder

def msgLenMax : Nat := 1500

/-- Offsets of the fields of `struct trace_server_msg`, and of its end. -/
def offSeq : Nat := 0
def offType : Nat := 4
def offMsgEnd : Nat := 5

/-- Offsets in `struct trace_server_msg_packet`; a `timestamp_nt` is aligned to 32 bytes, and its
size is a multiple of the alignment. -/
def offTimestamp : Nat := 32
def offContextSize : Nat := 64
def offContext : Nat := 66

/-- Offsets in `struct trace_server_msg_mark`; the base structure is aligned to 4 bytes. -/
def offMark : Nat := 8
def offMarkEnd : Nat := 9

def typePacket : Byte := 1
def typeMark : Byte := 2

/-- Values of the marks (`TRACE_SERVER_MSG_MARK_*`). -/
def Mark.value : Mark → Byte
  | .traceBegin => 1
  | .traceEnd => 2
  | .sessionBegin => 3
  | .sessionEnd => 4

def htonl (host : Host) (x : BitVec 32) : BitVec 32 := network (n := 4) host x

def htons (host : Host) (x : BitVec 16) : BitVec 16 := network (n := 2) host x

def ntohl (host : Host) (x : BitVec 32) : BitVec 32 := network (n := 4) host x

def ntohs (host : Host) (x : BitVec 16) : BitVec 16 := network (n := 2) host x

section Encoding

variable (host : Host)

def putU32 (mem : List Byte) (offset : Nat) (x : BitVec 32) : List Byte :=
  overwrite mem offset (store (n := 4) host x)

def putU16 (mem : List Byte) (offset : Nat) (x : BitVec 16) : List Byte :=
  overwrite mem offset (store (n := 2) host x)

def putU8 (mem : List Byte) (offset : Nat) (x : Byte) : List Byte :=
  overwrite mem offset [x]

def timestampNtSet (mem : List Byte) (offset : Nat) (ts : BitVec 64) : List Byte :=
  let tsLow : BitVec 32 := (ts &&& 0xffffffff).setWidth 32
  let tsHigh : BitVec 32 := (ts >>> 32).setWidth 32
  let mem := putU32 host mem (offset + 4) (htonl host tsLow)
  putU32 host mem offset (htonl host tsHigh)

/--
Bytes of a packet.  `stack` is what the memory of the structure held before: the padding between
the fields is sent too.
-/
def packetBytes (stack : Nat → Byte) (seq : BitVec 32) (event : ServerTraceEvent) : List Byte :=
  let eventSize : BitVec 32 := BitVec.ofNat 32 event.content.length
  let mem := (List.range offContext).map stack
  let mem := putU32 host mem offSeq ((htons host (seq.setWidth 16)).setWidth 32)
  let mem := putU8 mem offType typePacket
  let mem := putU16 host mem offContextSize (htons host (eventSize.setWidth 16))
  let mem := timestampNtSet host mem offTimestamp event.timestamp
  mem ++ event.content

def markBytes (stack : Nat → Byte) (seq : BitVec 32) (mark : Mark) : List Byte :=
  let mem := (List.range offMarkEnd).map stack
  let mem := putU32 host mem offSeq (htonl host seq)
  let mem := putU8 mem offType typeMark
  putU8 mem offMark mark.value

def Body.bytes (stack : Nat → Byte) (seq : BitVec 32) : Body → List Byte
  | .packet event => packetBytes host stack seq event
  | .mark m => markBytes host stack seq m

end Encoding

structure AssertFailed where
deriving DecidableEq

def assertThat (cond : Bool) : Except AssertFailed Unit :=
  if cond then .ok () else .error ⟨⟩

/-- Receive a datagram; what does not fit into the buffer is lost. -/
def traceClientReceiveMsg (datagram : List Byte) : Option (List Byte) :=
  let serverMsg := datagram.take msgLenMax
  if serverMsg.length < offMsgEnd then none else some serverMsg

structure TracePacket where
  eventContext : List Byte
  eventContextSize : BitVec 16
  timestamp : BitVec 64
deriving DecidableEq

section Decoding

variable (host : Host) (serverMsg : List Byte)

def getU32 (offset : Nat) : BitVec 32 := load 4 host (serverMsg.drop offset)

def getU16 (offset : Nat) : BitVec 16 := load 2 host (serverMsg.drop offset)

def getU8 (offset : Nat) : Byte := (serverMsg.drop offset).headD 0

def msgSeq : BitVec 32 := ntohl host (getU32 host serverMsg offSeq)

def timestampNtGet (offset : Nat) : BitVec 64 :=
  (ntohl host (getU32 host serverMsg (offset + 4))).setWidth 64 +
    (ntohl host (getU32 host serverMsg offset)).setWidth 64 <<< 32

/-- The value of the mark, if the message contains one. -/
def isMark : Except AssertFailed (Option Byte) :=
  if getU8 serverMsg offType = typeMark then do
    assertThat (offMarkEnd ≤ serverMsg.length)
    return some (getU8 serverMsg offMark)
  else return none

/-- The parameters of the packet, if the message contains one. -/
def isTracePacket : Except AssertFailed (Option TracePacket) :=
  if getU8 serverMsg offType = typePacket then do
    assertThat (offContext ≤ serverMsg.length)
    let eventContextSize := ntohs host (getU16 host serverMsg offContextSize)
    assertThat (offContext + eventContextSize.toNat ≤ serverMsg.length)
    return some {
      eventContext := (serverMsg.drop offContext).take eventContextSize.toNat
      eventContextSize
      timestamp := timestampNtGet host serverMsg offTimestamp }
  else return none

end Decoding

/-- The received message is read as what was sent. -/
def ReadsAs (host : Host) (serverMsg : List Byte) : Body → Prop
  | .packet event => isMark serverMsg = .ok none ∧
      ∃ size, isTracePacket host serverMsg = .ok (some ⟨event.content, size, event.timestamp⟩) ∧
        size.toNat = event.content.length
  | .mark mark => isMark serverMsg = .ok (some mark.value) ∧
      isTracePacket host serverMsg = .ok none

/--
The client decodes what the server encodes: the message sent after `n` others is received, is
read without a failing assertion as the same kind of message with the same data, and its number
is `n`.
-/
def Decodes (server client : Host) (stack : Nat → Byte) (n : Nat) (body : Body) : Prop :=
  ∃ serverMsg,
    traceClientReceiveMsg (body.bytes server stack (BitVec.ofNat 32 n)) = some serverMsg ∧
    ReadsAs client serverMsg body ∧
    (msgSeq client serverMsg).toNat = n

section Fields

variable (server : Host) (stack : Nat → Byte) (seq : BitVec 32)

theorem packetBytes_fields (event : ServerTraceEvent) :
    ∃ header, packetBytes server stack seq event = header ++ event.content ∧
      header.length = offContext ∧
      Field header offSeq (store (n := 4) server ((htons server (seq.setWidth 16)).setWidth 32)) ∧
      Field header offType [typePacket] ∧
      Field header offContextSize (store (n := 2) server
        (htons server ((BitVec.ofNat 32 event.content.length).setWidth 16))) ∧
      Field header offTimestamp (store (n := 4) server
        (htonl server ((event.timestamp >>> 32).setWidth 32))) ∧
      Field header (offTimestamp + 4) (store (n := 4) server
        (htonl server ((event.timestamp &&& 0xffffffff).setWidth 32))) := by
  refine ⟨_, rfl, ?_⟩
  simp only [timestampNtSet, putU32, putU16, putU8, offContext, offSeq, offType, offContextSize,
    offTimestamp]
  refine ⟨by simp, ?_, ?_, ?_, ?_, ?_⟩
  · refine Field.overwrite (Field.overwrite (Field.overwrite (Field.overwrite (field_overwrite ?_)
      ?_ ?_) ?_ ?_) ?_ ?_) ?_ ?_ <;> simp
  · refine Field.overwrite (Field.overwrite (Field.overwrite (field_overwrite ?_)
      ?_ ?_) ?_ ?_) ?_ ?_ <;> simp
  · refine Field.overwrite (Field.overwrite (field_overwrite ?_) ?_ ?_) ?_ ?_ <;> simp
  · refine field_overwrite ?_
    simp
  · refine Field.overwrite (field_overwrite ?_) ?_ ?_ <;> simp

theorem markBytes_fields (mark : Mark) :
    (markBytes server stack seq mark).length = offMarkEnd ∧
      Field (markBytes server stack seq mark) offSeq (store (n := 4) server (htonl server seq)) ∧
      Field (markBytes server stack seq mark) offType [typeMark] ∧
      Field (markBytes server stack seq mark) offMark [mark.value] := by
  simp only [markBytes, putU32, putU8, offMarkEnd, offSeq, offType, offMark]
  refine ⟨by simp, ?_, ?_, ?_⟩
  · refine Field.overwrite (Field.overwrite (field_overwrite ?_) ?_ ?_) ?_ ?_ <;> simp
  · refine Field.overwrite (field_overwrite ?_) ?_ ?_ <;> simp
  · refine field_overwrite ?_
    simp

end Fields

section Reading

variable {server client : Host} {serverMsg : List Byte}

theorem ntohl_getU32
    {offset : Nat} {x : BitVec 32}
    (h : Field serverMsg offset (store (n := 4) server (htonl server x))) :
    ntohl client (getU32 client serverMsg offset) = x := by
  rw [getU32, h.load client (length_store (n := 4) server _)]
  exact network_load_store (n := 4) server client x

theorem ntohs_getU16
    {offset : Nat} {x : BitVec 16}
    (h : Field serverMsg offset (store (n := 2) server (htons server x))) :
    ntohs client (getU16 client serverMsg offset) = x := by
  rw [getU16, h.load client (length_store (n := 2) server _)]
  exact network_load_store (n := 2) server client x

theorem timestamp_halves (ts : BitVec 64) :
    ((ts &&& 0xffffffff).setWidth 32).setWidth 64 + ((ts >>> 32).setWidth 32).setWidth 64 <<< 32 =
      ts := by
  have hts := ts.isLt
  have hand : ts.toNat &&& (0xffffffff : BitVec 64).toNat = ts.toNat % 4294967296 :=
    Nat.and_two_pow_sub_one_eq_mod ts.toNat 32
  apply BitVec.eq_of_toNat_eq
  simp only [BitVec.toNat_add, BitVec.toNat_setWidth, BitVec.toNat_and, BitVec.toNat_shiftLeft,
    BitVec.toNat_ushiftRight, Nat.shiftLeft_eq, Nat.shiftRight_eq_div_pow, hand]
  omega

theorem timestampNtGet_eq {offset : Nat} {ts : BitVec 64}
    (hhigh : Field serverMsg offset
      (store (n := 4) server (htonl server ((ts >>> 32).setWidth 32))))
    (hlow : Field serverMsg (offset + 4)
      (store (n := 4) server (htonl server ((ts &&& 0xffffffff).setWidth 32)))) :
    timestampNtGet client serverMsg offset = ts := by
  rw [timestampNtGet, ntohl_getU32 hhigh, ntohl_getU32 hlow]
  exact timestamp_halves ts

theorem toNat_msgSeq_packet {seq : BitVec 32}
    (h : Field serverMsg offSeq
      (store (n := 4) server ((htons server (seq.setWidth 16)).setWidth 32))) :
    (msgSeq client serverMsg).toNat = halfValue server (seq.toNat % 65536) := by
  have hseq : (seq.setWidth 16).toNat = seq.toNat % 65536 := BitVec.toNat_setWidth ..
  rw [msgSeq, getU32, h.load client (length_store (n := 4) server _), ← hseq]
  exact network_load_setWidth server client (seq.setWidth 16)

end Reading

/--
When the client decodes a message: the number of a mark has 32 bits; a packet has to fit into the
buffer of the client, and 16 bits of its number are sent, at the wrong end of the field when the
server has the lowest byte first.
-/
def Decodable (server : Host) (n : Nat) : Body → Prop
  | .mark _ => n < 2 ^ 32
  | .packet event => offContext + event.content.length ≤ msgLenMax ∧
      match server with
      | .little => n = 0
      | .big => n < 2 ^ 16

section Decodes

variable {server client : Host} {stack : Nat → Byte} {n : Nat}

theorem traceClientReceiveMsg_eq {datagram : List Byte} (h : offMsgEnd ≤ datagram.length) :
    traceClientReceiveMsg datagram = some (datagram.take msgLenMax) := by
  have hlength : ¬ (datagram.take msgLenMax).length < offMsgEnd := by
    rw [List.length_take]
    simp only [msgLenMax, offMsgEnd] at *
    omega
  simp only [traceClientReceiveMsg, if_neg hlength]

theorem decodes_mark_iff (mark : Mark) :
    Decodes server client stack n (.mark mark) ↔ n < 2 ^ 32 := by
  obtain ⟨hlength, hseq, htype, hmark⟩ :=
    markBytes_fields server stack (BitVec.ofNat 32 n) mark
  have hreceive : traceClientReceiveMsg (markBytes server stack (BitVec.ofNat 32 n) mark) =
      some (markBytes server stack (BitVec.ofNat 32 n) mark) := by
    rw [traceClientReceiveMsg_eq (by rw [hlength]; decide),
      List.take_of_length_le (by rw [hlength]; decide)]
  have hreads : ReadsAs client (markBytes server stack (BitVec.ofNat 32 n) mark) (.mark mark) := by
    constructor
    · rw [isMark, getU8, htype.headD, if_pos rfl, getU8, hmark.headD, hlength]
      rfl
    · rw [isTracePacket, getU8, htype.headD, if_neg (by decide)]
      rfl
  have hnumber : (msgSeq client (markBytes server stack (BitVec.ofNat 32 n) mark)).toNat =
      n % 2 ^ 32 := by
    rw [msgSeq, ntohl_getU32 hseq, BitVec.toNat_ofNat]
  constructor
  · rintro ⟨serverMsg, hserverMsg, -, hn⟩
    obtain rfl := Option.some.inj (hreceive.symm.trans hserverMsg)
    rw [← hn, hnumber]
    exact Nat.mod_lt _ (by decide)
  · intro hn
    exact ⟨_, hreceive, hreads, hnumber.trans (Nat.mod_eq_of_lt hn)⟩

theorem received_packet (server client : Host) (stack : Nat → Byte) (seq : BitVec 32)
    (event : ServerTraceEvent) :
    ∃ header, header.length = offContext ∧
      traceClientReceiveMsg (packetBytes server stack seq event) =
        some (header ++ event.content.take (msgLenMax - offContext)) ∧
      ∀ rest, (msgSeq client (header ++ rest)).toNat = halfValue server (seq.toNat % 65536) ∧
        isMark (header ++ rest) = .ok none ∧
        isTracePacket client (header ++ rest) =
          if event.content.length % 65536 ≤ rest.length then
            .ok (some ⟨rest.take (event.content.length % 65536),
              (BitVec.ofNat 32 event.content.length).setWidth 16, event.timestamp⟩)
          else .error ⟨⟩ := by
  obtain ⟨header, hbytes, hlength, hseq, htype, hsize, hhigh, hlow⟩ :=
    packetBytes_fields server stack seq event
  have hreceive : traceClientReceiveMsg (packetBytes server stack seq event) =
      some (header ++ event.content.take (msgLenMax - offContext)) := by
    rw [hbytes, traceClientReceiveMsg_eq, List.take_append, hlength,
      List.take_of_length_le (by rw [hlength]; decide)]
    rw [List.length_append, hlength]
    simp only [offMsgEnd, offContext]
    omega
  refine ⟨header, hlength, hreceive, fun rest => ?_⟩
  have hoffset : ∀ {offset : Nat}, offset < 66 → offset ≤ header.length := by
    intro offset hoffset
    rw [hlength]
    exact hoffset.le
  have htype' := htype.append (hoffset (by decide)) rest
  refine ⟨toNat_msgSeq_packet (hseq.append (hoffset (by decide)) rest), ?_, ?_⟩
  · rw [isMark, getU8, htype'.headD, if_neg (by decide)]
    rfl
  · have hsize' : ntohs client (getU16 client (header ++ rest) offContextSize) = _ :=
      ntohs_getU16 (hsize.append (hoffset (by decide)) rest)
    have htimestamp : timestampNtGet client (header ++ rest) offTimestamp = _ :=
      timestampNtGet_eq (hhigh.append (hoffset (by decide)) rest)
        (hlow.append (hoffset (by decide)) rest)
    have htoNat : ((BitVec.ofNat 32 event.content.length).setWidth 16).toNat =
        event.content.length % 65536 := by
      rw [BitVec.toNat_setWidth, BitVec.toNat_ofNat]
      omega
    have hfits : (header ++ rest).length = offContext + rest.length := by
      rw [List.length_append, hlength]
    rw [isTracePacket, getU8, htype'.headD, if_pos rfl, hfits]
    simp only [hsize', htimestamp, htoNat, ← hlength, List.drop_left, Nat.le_add_right,
      Nat.add_le_add_iff_left]
    split_ifs with hrest
    · simp only [hrest]
      rfl
    · simp only [hrest]
      rfl

/-- A packet is decoded if it fits and its number survives the conversion. -/
theorem decodes_packet_iff (event : ServerTraceEvent) :
    Decodes server client stack n (.packet event) ↔
      offContext + event.content.length ≤ msgLenMax ∧ halfValue server (n % 65536) = n := by
  obtain ⟨header, hlength, hreceive, hheader⟩ :=
    received_packet server client stack (BitVec.ofNat 32 n) event
  obtain ⟨hseq, hmark, hpacket⟩ := hheader (event.content.take (msgLenMax - offContext))
  have hnumber : (BitVec.ofNat 32 n).toNat % 65536 = n % 65536 := by
    rw [BitVec.toNat_ofNat]
    omega
  rw [hnumber] at hseq
  have hsize : ((BitVec.ofNat 32 event.content.length).setWidth 16).toNat =
      event.content.length % 65536 := by
    rw [BitVec.toNat_setWidth, BitVec.toNat_ofNat]
    omega
  rw [List.length_take] at hpacket
  constructor
  · rintro ⟨serverMsg, hserverMsg, ⟨-, size, hreads, hcontent⟩, hn⟩
    obtain rfl := Option.some.inj (hreceive.symm.trans hserverMsg)
    refine ⟨?_, hseq.symm.trans hn⟩
    rw [hpacket] at hreads
    split_ifs at hreads with hfits
    obtain rfl : (BitVec.ofNat 32 event.content.length).setWidth 16 = size :=
      (TracePacket.mk.inj (Option.some.inj (Except.ok.inj hreads))).2.1
    rw [hsize] at hcontent
    simp only [offContext, msgLenMax] at hfits ⊢
    omega
  · rintro ⟨hfits, hn⟩
    refine ⟨_, hreceive, ⟨hmark, (BitVec.ofNat 32 event.content.length).setWidth 16, ?_, ?_⟩,
      hseq.trans hn⟩
    · have hmod : event.content.length % 65536 = event.content.length := by
        simp only [offContext, msgLenMax] at hfits
        omega
      have htake : event.content.take (msgLenMax - offContext) = event.content :=
        List.take_of_length_le (by omega)
      rw [hpacket, hmod, htake, if_pos (by simp only [offContext, msgLenMax] at hfits ⊢; omega),
        List.take_length]
    · rw [hsize]
      simp only [offContext, msgLenMax] at hfits
      omega

/-- The client decodes a message exactly when it is decodable. -/
theorem decodes_iff (server client : Host) (stack : Nat → Byte) (n : Nat) (body : Body) :
    Decodes server client stack n body ↔ Decodable server n body := by
  cases body with
  | mark m => exact decodes_mark_iff m
  | packet event =>
    rw [decodes_packet_iff]
    refine and_congr_right fun _ => ?_
    cases server with
    | little
    | big =>
      rw [halfValue]
      constructor <;> intro h <;> omega

/-- The second message of a session of a server with the lowest byte first, when it is a packet. -/
theorem not_decodes_packet :
    ¬ Decodes .little .little (fun _ => 0) 1 (.packet ⟨[7], 5⟩) := by
  rw [decodes_packet_iff]
  rintro ⟨-, h⟩
  cases h

end Decodes

end TraceUdp
end KedrAux
