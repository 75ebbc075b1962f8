import Pico10BaseT.Conntrack.Basic
import Pico10BaseT.Frame

/-!
# The DHCP codec

The messages of the LAN DHCP server.  Their wire format is smoltcp's and a parameter
(`DhcpCodecOps`); what the server relies on of it is what `LawfulDhcpCodec` says of replies.

* `wireCodec` : the fixed fields and the options a reply has, as they stand on the wire.
* `wireCodec_lawful` : it is such a codec.
-/

namespace Pico10BaseT

/-- DHCP option code for "Domain Name Server". -/
def optDnsServer : UInt8 := 6

inductive DhcpMessageType
  | discover | offer | request | decline | ack | nak | release | inform
  | unknown (code : UInt8)
  deriving DecidableEq, Repr

structure DhcpOption where
  kind : UInt8
  data : List UInt8
  deriving DecidableEq, Repr

/-- A DHCP message. -/
structure DhcpRepr where
  messageType : DhcpMessageType
  transactionId : UInt32
  secs : UInt16
  clientHardwareAddress : Vector UInt8 6
  clientIp : Ipv4Address
  yourIp : Ipv4Address
  serverIp : Ipv4Address
  router : Option Ipv4Address
  subnetMask : Option Ipv4Address
  relayAgentIp : Ipv4Address
  broadcast : Bool
  requestedIp : Option Ipv4Address
  clientIdentifier : Option (Vector UInt8 6)
  serverIdentifier : Option Ipv4Address
  parameterRequestList : Option (List UInt8)
  dnsServers : Option (List Ipv4Address)
  maxSize : Option UInt16
  leaseDuration : Option UInt32
  renewDuration : Option UInt32
  rebindDuration : Option UInt32
  additionalOptions : List DhcpOption
  deriving DecidableEq, Repr

/-- smoltcp's DHCP codec. -/
class DhcpCodecOps where
  /-- `DhcpPacket::new_checked`: the bytes hold the fixed fields. -/
  newChecked : List UInt8 → Bool
  parse : List UInt8 → Option DhcpRepr
  bufferLen : DhcpRepr → ℕ
  /-- Write the message over a buffer. -/
  emit : DhcpRepr → List UInt8 → Option (List UInt8)

open DhcpCodecOps

/-- A message as a server sends it: an OFFER or an ACK with no option list but DNS servers. -/
structure DhcpRepr.IsReply (r : DhcpRepr) : Prop where
  messageType : r.messageType = .offer ∨ r.messageType = .ack
  parameterRequestList : r.parameterRequestList = none
  dnsServers : r.dnsServers = none
  additionalOptions : ∀ o ∈ r.additionalOptions, o.kind = optDnsServer ∧ o.data.length = 4

/-- What the server relies on of the codec. -/
class LawfulDhcpCodec [DhcpCodecOps] : Prop where
  /-- The fixed fields take 240 bytes, the options of one value 60 bytes at most. -/
  bufferLen_le : ∀ r : DhcpRepr, r.IsReply →
    bufferLen r ≤ 300 + (r.additionalOptions.map fun o => 2 + o.data.length).sum
  /-- A buffer of the announced length takes the message. -/
  emit_ok : ∀ r : DhcpRepr, r.IsReply → ∀ buf : List UInt8, buf.length = bufferLen r →
    ∃ out, emit r buf = some out ∧ out.length = buf.length
  /-- What was emitted is parsed back. -/
  parse_emit : ∀ r : DhcpRepr, r.IsReply → ∀ buf out : List UInt8, buf.length = bufferLen r →
    emit r buf = some out →
    ∃ q, parse out = some q ∧ q.messageType = r.messageType ∧
      q.clientHardwareAddress = r.clientHardwareAddress ∧ q.yourIp = r.yourIp

/-! ### The wire format -/

/-- Big-endian bytes. -/
def beBytes (v : UInt32) : List UInt8 := (toLeBytes v).reverse

def DhcpMessageType.code : DhcpMessageType → UInt8
  | discover => 1
  | offer => 2
  | request => 3
  | decline => 4
  | ack => 5
  | nak => 6
  | release => 7
  | inform => 8
  | unknown code => code

def DhcpMessageType.ofCode : UInt8 → DhcpMessageType
  | 1 => discover
  | 2 => offer
  | 3 => request
  | 4 => decline
  | 5 => ack
  | 6 => nak
  | 7 => release
  | 8 => inform
  | code => unknown code

namespace DhcpWire

/-- One option. -/
def option (kind : UInt8) (data : List UInt8) : List UInt8 :=
  kind :: UInt8.ofNat data.length :: data

/-- The first option `kind` among at most `n`. -/
def find (kind : UInt8) : ℕ → List UInt8 → Option (List UInt8)
  | n + 1, k :: rest =>
    if k = 0 then find kind n rest
    else if k = 255 then none
    else
      match rest with
      | [] => none
      | len :: rest =>
        if k = kind then some (rest.take len.toNat) else find kind n (rest.drop len.toNat)
  | _, _ => none

def ipOf : List UInt8 → Option Ipv4Address
  | [a, b, c, d] => some ⟨a, b, c, d⟩
  | _ => none

def ipsOf : List UInt8 → List Ipv4Address
  | a :: b :: c :: d :: rest => ⟨a, b, c, d⟩ :: ipsOf rest
  | _ => []

def u32Of : List UInt8 → Option UInt32
  | [a, b, c, d] => some (fromLeBytes d c b a)
  | _ => none

/-- The fixed fields: 240 bytes up to the magic number. -/
def fixed (r : DhcpRepr) : List UInt8 :=
  let op : UInt8 := match r.messageType with
    | .offer | .ack | .nak => 2
    | _ => 1
  let xid := r.transactionId
  let mac := r.clientHardwareAddress
  let flags : UInt8 := if r.broadcast then 0x80 else 0
  [op, 1, 6, 0,
    (xid >>> 24).toUInt8, (xid >>> 16).toUInt8, (xid >>> 8).toUInt8, xid.toUInt8,
    (r.secs >>> 8).toUInt8, r.secs.toUInt8, flags, 0,
    r.clientIp.a, r.clientIp.b, r.clientIp.c, r.clientIp.d,
    r.yourIp.a, r.yourIp.b, r.yourIp.c, r.yourIp.d,
    r.serverIp.a, r.serverIp.b, r.serverIp.c, r.serverIp.d,
    r.relayAgentIp.a, r.relayAgentIp.b, r.relayAgentIp.c, r.relayAgentIp.d,
    mac[0], mac[1], mac[2], mac[3], mac[4], mac[5]] ++
    (List.replicate 202 0 ++ [0x63, 0x82, 0x53, 0x63])

/-- The options of a reply, the message type first. -/
def options (r : DhcpRepr) : List UInt8 :=
  let ip (kind : UInt8) (v : Option Ipv4Address) := (v.map fun ip => option kind ip.octets).getD []
  option 53 [r.messageType.code] ++ ip 54 r.serverIdentifier ++ ip 3 r.router ++
    ip 1 r.subnetMask ++ (r.leaseDuration.map fun n => option 51 (beBytes n)).getD [] ++
    r.additionalOptions.flatMap (fun o => option o.kind o.data) ++ [255]

def parse (b : List UInt8) : Option DhcpRepr :=
  let get (kind : UInt8) := find kind b.length (b.drop 240)
  let ip (i : ℕ) : Ipv4Address := ⟨b.getD i 0, b.getD (i + 1) 0, b.getD (i + 2) 0, b.getD (i + 3) 0⟩
  match get 53 with
  | some [code] =>
    if (b.drop 236).take 4 = [0x63, 0x82, 0x53, 0x63] ∧ b.getD 1 0 = 1 ∧ b.getD 2 0 = 6 then
      some {
        messageType := .ofCode code
        transactionId := fromLeBytes (b.getD 7 0) (b.getD 6 0) (b.getD 5 0) (b.getD 4 0)
        secs := (b.getD 8 0).toUInt16 <<< 8 ||| (b.getD 9 0).toUInt16
        clientHardwareAddress := #v[b.getD 28 0, b.getD 29 0, b.getD 30 0, b.getD 31 0,
          b.getD 32 0, b.getD 33 0]
        clientIp := ip 12
        yourIp := ip 16
        serverIp := ip 20
        router := (get 3).bind ipOf
        subnetMask := (get 1).bind ipOf
        relayAgentIp := ip 24
        broadcast := b.getD 10 0 &&& 0x80 ≠ 0
        requestedIp := none
        clientIdentifier := none
        serverIdentifier := (get 54).bind ipOf
        parameterRequestList := none
        dnsServers := (get 6).map ipsOf
        maxSize := none
        leaseDuration := (get 51).bind u32Of
        renewDuration := none
        rebindDuration := none
        additionalOptions := [] }
    else none
  | _ => none

theorem length_beBytes (v : UInt32) : (beBytes v).length = 4 := rfl

theorem length_fixed (r : DhcpRepr) : (fixed r).length = 240 := by
  simp only [fixed, List.length_append, List.length_replicate, List.length_cons, List.length_nil]

/-- The options start with the message type. -/
theorem options_eq (r : DhcpRepr) :
    ∃ rest, options r = 53 :: 1 :: r.messageType.code :: rest := ⟨_, rfl⟩

theorem length_options_le (r : DhcpRepr) :
    (options r).length ≤ 28 + (r.additionalOptions.map fun o => 2 + o.data.length).sum := by
  have hip : ∀ (kind : UInt8) (v : Option Ipv4Address),
      ((v.map fun ip => option kind ip.octets).getD []).length ≤ 6 := by
    intro kind v
    cases v <;> simp [option, Ipv4Address.octets]
  have hu32 : ((r.leaseDuration.map fun n => option 51 (beBytes n)).getD []).length ≤ 6 := by
    cases r.leaseDuration <;> simp [option, length_beBytes]
  have hadd : (r.additionalOptions.flatMap fun o => option o.kind o.data).length =
      (r.additionalOptions.map fun o => 2 + o.data.length).sum := by
    rw [List.length_flatMap]
    congr 2
    funext o
    simp only [option, List.length_cons]
    omega
  have h54 := hip 54 r.serverIdentifier
  have h3 := hip 3 r.router
  have h1 := hip 1 r.subnetMask
  simp only [options, List.length_append, hadd]
  simp only [option, List.length_cons, List.length_nil] at *
  omega

theorem find_type (kind data : UInt8) (n : ℕ) (rest : List UInt8) (h0 : kind ≠ 0)
    (h255 : kind ≠ 255) : find kind (n + 1) (kind :: 1 :: data :: rest) = some [data] := by
  simp [find, h0, h255]

/-- The message type and the two addresses of a message are parsed back. -/
theorem parse_bytes (r : DhcpRepr) :
    ∃ q, parse (fixed r ++ options r) = some q ∧
      q.messageType = .ofCode r.messageType.code ∧
      q.clientHardwareAddress = r.clientHardwareAddress ∧ q.yourIp = r.yourIp := by
  obtain ⟨rest, hopt⟩ := options_eq r
  have hlen : (fixed r ++ options r).length = (options r).length + 239 + 1 := by
    rw [List.length_append, length_fixed]
    omega
  have hget : find 53 (fixed r ++ options r).length ((fixed r ++ options r).drop 240) =
      some [r.messageType.code] := by
    rw [List.drop_left' (length_fixed r), hlen, hopt]
    exact find_type 53 _ _ _ (by decide) (by decide)
  have hmagic : ((fixed r ++ options r).drop 236).take 4 = [0x63, 0x82, 0x53, 0x63] := rfl
  simp only [parse, hget]
  rw [if_pos ⟨hmagic, rfl, rfl⟩]
  refine ⟨_, rfl, rfl, ?_, rfl⟩
  ext i hi
  match i, hi with
  | 0, _ | 1, _ | 2, _ | 3, _ | 4, _ | 5, _ => rfl

end DhcpWire

/-- The codec of the wire format, for messages with the options of a reply. -/
@[reducible]
def wireCodec : DhcpCodecOps where
  newChecked b := decide (240 ≤ b.length)
  parse := DhcpWire.parse
  bufferLen r := (DhcpWire.fixed r ++ DhcpWire.options r).length
  emit r buf :=
    let bytes := DhcpWire.fixed r ++ DhcpWire.options r
    if bytes.length ≤ buf.length then some (bytes ++ buf.drop bytes.length) else none

theorem wireCodec_lawful : @LawfulDhcpCodec wireCodec :=
  let _ := wireCodec
  { bufferLen_le := fun r _ => by
      have hle := DhcpWire.length_options_le r
      show (DhcpWire.fixed r ++ DhcpWire.options r).length ≤ _
      rw [List.length_append, DhcpWire.length_fixed]
      omega
    emit_ok := fun r _ buf hbuf => by
      have hlen : buf.length = (DhcpWire.fixed r ++ DhcpWire.options r).length := hbuf
      refine ⟨_, if_pos (le_of_eq hlen.symm), ?_⟩
      rw [List.drop_eq_nil_of_le (le_of_eq hlen), List.append_nil, hlen]
    parse_emit := fun r hr buf out hbuf hemit => by
      have hlen : buf.length = (DhcpWire.fixed r ++ DhcpWire.options r).length := hbuf
      have hout : out = DhcpWire.fixed r ++ DhcpWire.options r := by
        have hsome := (if_pos (le_of_eq hlen.symm)).symm.trans hemit
        rw [List.drop_eq_nil_of_le (le_of_eq hlen), List.append_nil] at hsome
        exact (Option.some.inj hsome).symm
      obtain ⟨q, hq, htype, hmac, hip⟩ := DhcpWire.parse_bytes r
      refine ⟨q, hout.symm ▸ hq, ?_, hmac, hip⟩
      rw [htype]
      rcases hr.messageType with h | h <;> rw [h] <;> rfl }

end Pico10BaseT
