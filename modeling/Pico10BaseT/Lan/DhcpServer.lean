import Pico10BaseT.Alloc.FirstFit
import Pico10BaseT.Lan.DhcpCodec

/-!
# The LAN DHCP server

`allocate` and `build_reply` of `dhcp_server.rs`: a fixed pool of addresses handed out first fit,
keyed by the client's MAC.

* `DhcpServer.buildReply_cases` : everything one request can do.
* `lease_service` : what holds of the table and of the replies over any sequence of requests.
-/

namespace Pico10BaseT

open DhcpCodecOps

/-- The Pico's LAN address: gateway and DHCP server identifier. -/
def serverIp : Ipv4Address := ⟨192, 168, 4, 1⟩

def subnetMask : Ipv4Address := ⟨255, 255, 255, 0⟩

/-- Slot `i` of the pool is `192.168.4.(poolBase + i)`. -/
def poolBase : UInt8 := 10

/-- Lease pool size. -/
def poolLen : ℕ := 32

/-- Lease time handed to clients. -/
def leaseSecs : UInt32 := 3600

/-! ### The server -/

/-- IP for pool slot `i`. -/
def ipFor (i : ℕ) : Ipv4Address := ⟨192, 168, 4, poolBase + UInt8.ofNat i⟩

/-- Fixed MAC→IP lease allocator: slot `i` holds the MAC that has the address `ipFor i`. -/
structure DhcpServer where
  leases : List (Option (Vector UInt8 6))
  /-- The lease array has a fixed size. -/
  size : leases.length = poolLen

namespace DhcpServer

def new : DhcpServer where
  leases := List.replicate poolLen none
  size := by simp

/-- Currently held leases. -/
def activeLeases (s : DhcpServer) : List (Ipv4Address × Vector UInt8 6) :=
  s.leases.zipIdx.filterMap fun x => x.1.map fun mac => (ipFor x.2, mac)

/-- Reuse this MAC's existing lease, else claim the first free slot. -/
def allocate (s : DhcpServer) (mac : Vector UInt8 6) : DhcpServer × Option Ipv4Address :=
  match s.leases.findIdx? fun c => c = some mac with
  | some i => (s, some (ipFor i))
  | none =>
    match s.leases.findIdx? fun c => c.isNone with
    | some i => ({ leases := s.leases.set i (some mac), size := by simp [s.size] }, some (ipFor i))
    | none => (s, none)

/-- OFFER to a DISCOVER, ACK to a REQUEST; other message types are ignored. -/
def replyType : DhcpMessageType → Option DhcpMessageType
  | .discover => some .offer
  | .request => some .ack
  | _ => none

/-- The reply to `req`. -/
def replyRepr (replyType : DhcpMessageType) (req : DhcpRepr) (yourIp : Ipv4Address)
    (dnsOffer : UInt32) : DhcpRepr where
  messageType := replyType
  transactionId := req.transactionId
  secs := 0
  clientHardwareAddress := req.clientHardwareAddress
  clientIp := .unspecified
  yourIp := yourIp
  serverIp := .unspecified
  router := some Pico10BaseT.serverIp
  subnetMask := some Pico10BaseT.subnetMask
  relayAgentIp := .unspecified
  -- the client has no IP yet
  broadcast := true
  requestedIp := none
  clientIdentifier := none
  serverIdentifier := some Pico10BaseT.serverIp
  parameterRequestList := none
  dnsServers := none
  maxSize := none
  leaseDuration := some leaseSecs
  renewDuration := none
  rebindDuration := none
  additionalOptions := [⟨optDnsServer, (toLeBytes dnsOffer).reverse⟩]

/-- Parse one request and, for DISCOVER/REQUEST, build the OFFER/ACK bytes: the reply buffer and its
length.  `dnsOffer` is what `LAN_DNS_OFFER` holds. -/
def buildReply [DhcpCodecOps] (s : DhcpServer) (dnsOffer : UInt32) (reqBytes : List UInt8) :
    DhcpServer × Option (List UInt8 × ℕ) :=
  if newChecked reqBytes then
    match parse reqBytes with
    | none => (s, none)
    | some req =>
      match replyType req.messageType with
      | none => (s, none)
      | some replyType =>
        match s.allocate req.clientHardwareAddress with
        | (s, none) => (s, none)
        | (s, some yourIp) =>
          let reply := replyRepr replyType req yourIp dnsOffer
          let blen := bufferLen reply
          if blen > 1024 then (s, none)
          else
            match emit reply (List.replicate blen 0) with
            | none => (s, none)
            | some pkt => (s, some (pkt ++ List.replicate (1024 - blen) 0, blen))
  else (s, none)

/-! ### One request -/

/-- Allocating is a first-fit claim. -/
theorem allocate_eq (s : DhcpServer) (mac : Vector UInt8 6) :
    (s.allocate mac).1.leases = (FirstFit.claim s.leases mac).1 ∧
      (s.allocate mac).2 = (FirstFit.claim s.leases mac).2.map ipFor := by
  rw [allocate, FirstFit.claim]
  cases s.leases.findIdx? fun c => c = some mac with
  | some i => exact ⟨rfl, rfl⟩
  | none => cases s.leases.findIdx? fun c => c.isNone <;> exact ⟨rfl, rfl⟩

theorem ext_leases {s s' : DhcpServer} (h : s.leases = s'.leases) : s = s' := by
  cases s
  cases s'
  cases h
  rfl

/-- The request is a DISCOVER or a REQUEST. -/
def Asks [DhcpCodecOps] (reqBytes : List UInt8) (req : DhcpRepr) : Prop :=
  newChecked reqBytes = true ∧ parse reqBytes = some req ∧ (replyType req.messageType).isSome

/-- The reply tells the client `mac` that its address is `ip`. -/
def Tells [DhcpCodecOps] (type : DhcpMessageType) (mac : Vector UInt8 6) (ip : Ipv4Address)
    (reply : List UInt8 × ℕ) : Prop :=
  ∃ q, parse (reply.1.take reply.2) = some q ∧ q.messageType = type ∧
    q.clientHardwareAddress = mac ∧ q.yourIp = ip

theorem replyType_eq_some {type type' : DhcpMessageType}
    (h : replyType type = some type') : type' = .offer ∨ type' = .ack := by
  cases type <;> cases h
  · exact .inl rfl
  · exact .inr rfl

theorem isReply_replyRepr {type type' : DhcpMessageType} (h : replyType type = some type')
    (req : DhcpRepr) (ip : Ipv4Address) (dnsOffer : UInt32) :
    (replyRepr type' req ip dnsOffer).IsReply := by
  refine ⟨replyType_eq_some h, rfl, rfl, ?_⟩
  intro o ho
  rw [replyRepr, List.mem_singleton] at ho
  subst ho
  exact ⟨rfl, rfl⟩

section Codec

variable [DhcpCodecOps] [LawfulDhcpCodec]

/-- The reply fits the buffer, so a client with an address gets its reply. -/
theorem emit_reply {type type' : DhcpMessageType} (h : replyType type = some type')
    (req : DhcpRepr) (ip : Ipv4Address) (dnsOffer : UInt32) :
    let reply := replyRepr type' req ip dnsOffer
    bufferLen reply ≤ 1024 ∧ ∃ pkt, emit reply (List.replicate (bufferLen reply) 0) = some pkt ∧
      Tells type' req.clientHardwareAddress ip
        (pkt ++ List.replicate (1024 - bufferLen reply) 0, bufferLen reply) := by
  intro reply
  have hreply := isReply_replyRepr h req ip dnsOffer
  have hlen : (List.replicate (bufferLen reply) (0 : UInt8)).length = bufferLen reply := by simp
  have hle := LawfulDhcpCodec.bufferLen_le reply hreply
  obtain ⟨pkt, hemit, hpkt⟩ := LawfulDhcpCodec.emit_ok reply hreply _ hlen
  refine ⟨hle.trans (show 300 + (2 + 4 + 0) ≤ 1024 by omega), pkt, hemit, ?_⟩
  rw [Tells, List.take_left' (hpkt.trans hlen)]
  exact LawfulDhcpCodec.parse_emit reply hreply _ _ hlen hemit

omit [LawfulDhcpCodec] in
/-- Other messages, and what is not a message, change nothing. -/
theorem buildReply_ignores (s : DhcpServer) (dnsOffer : UInt32) {reqBytes : List UInt8}
    (h : ∀ req, ¬ Asks reqBytes req) : s.buildReply dnsOffer reqBytes = (s, none) := by
  rw [buildReply]
  cases hnew : newChecked reqBytes with
  | false => rfl
  | true =>
    cases hparse : parse reqBytes with
    | none => rfl
    | some req =>
      cases htype : replyType req.messageType with
      | none => simp [htype]
      | some type => exact absurd ⟨hnew, hparse, by simp [htype]⟩ (h req)

/-- **What a DISCOVER or a REQUEST does**: the client claims its slot and is told the address of the
slot, or the pool has none for it. -/
theorem buildReply_cases (s : DhcpServer) (dnsOffer : UInt32) {reqBytes : List UInt8}
    {req : DhcpRepr} (h : Asks reqBytes req) :
    (∃ i s' reply type, FirstFit.claim s.leases req.clientHardwareAddress = (s'.leases, some i) ∧
      s.buildReply dnsOffer reqBytes = (s', some reply) ∧
      replyType req.messageType = some type ∧
      Tells type req.clientHardwareAddress (ipFor i) reply) ∨
    (FirstFit.claim s.leases req.clientHardwareAddress = (s.leases, none) ∧
      s.buildReply dnsOffer reqBytes = (s, none)) := by
  obtain ⟨hnew, hparse, hsome⟩ := h
  obtain ⟨type, htype⟩ := Option.isSome_iff_exists.1 hsome
  obtain ⟨hleases, hip⟩ := s.allocate_eq req.clientHardwareAddress
  rcases halloc : s.allocate req.clientHardwareAddress with ⟨s', r⟩
  rcases hclaim : FirstFit.claim s.leases req.clientHardwareAddress with ⟨t, i⟩
  rw [halloc, hclaim] at hleases hip
  simp only at hleases hip
  cases i with
  | none =>
    obtain rfl : r = none := hip
    have ht : t = s.leases := by
      rcases FirstFit.claim_cases s.leases req.clientHardwareAddress with
        ⟨i, -, heq⟩ | ⟨-, i, -, heq⟩ | ⟨-, -, heq⟩ <;> rw [hclaim] at heq <;> cases heq
      rfl
    have hs : s' = s := ext_leases (hleases.trans ht)
    refine .inr ⟨by rw [ht], ?_⟩
    simp only [buildReply, hnew, if_true, hparse, htype, halloc, hs]
  | some i =>
    obtain rfl : r = some (ipFor i) := hip
    obtain ⟨hle, pkt, hemit, htells⟩ := emit_reply htype req (ipFor i) dnsOffer
    refine .inl ⟨i, s', _, type, by rw [hleases], ?_, htype, htells⟩
    simp only [buildReply, hnew, if_true, hparse, htype, halloc, if_neg (Nat.not_lt.2 hle), hemit]

/-- A client that finds a slot is told its address. -/
theorem buildReply_of_claim {s : DhcpServer} (dnsOffer : UInt32) {reqBytes : List UInt8}
    {req : DhcpRepr} (h : Asks reqBytes req) {t : List (Option (Vector UInt8 6))} {i : ℕ}
    (hclaim : FirstFit.claim s.leases req.clientHardwareAddress = (t, some i)) :
    ∃ s' reply type, s'.leases = t ∧ s.buildReply dnsOffer reqBytes = (s', some reply) ∧
      replyType req.messageType = some type ∧
      Tells type req.clientHardwareAddress (ipFor i) reply := by
  rcases s.buildReply_cases dnsOffer h with
    ⟨j, s', reply, type, hclaim', hbuild, htype, htells⟩ | ⟨hclaim', -⟩
  · rw [hclaim, Prod.mk.injEq, Option.some_inj] at hclaim'
    obtain ⟨ht, rfl⟩ := hclaim'
    exact ⟨s', reply, type, ht.symm, hbuild, htype, htells⟩
  · rw [hclaim] at hclaim'
    cases hclaim'

end Codec

theorem mem_activeLeases {s : DhcpServer} {ip : Ipv4Address} {mac : Vector UInt8 6} :
    (ip, mac) ∈ s.activeLeases ↔ ∃ i, FirstFit.Held s.leases i mac ∧ ip = ipFor i := by
  simp only [activeLeases, List.mem_filterMap, Prod.exists, List.mem_zipIdx_iff_getElem?,
    Option.map_eq_some_iff, Prod.mk.injEq]
  constructor
  · rintro ⟨c, i, hi, mac', rfl, rfl, rfl⟩
    exact ⟨i, hi, rfl⟩
  · rintro ⟨i, hi, rfl⟩
    exact ⟨some mac, i, hi, mac, rfl, rfl, rfl⟩

theorem d_ipFor {i : ℕ} (hi : i < poolLen) : (ipFor i).d.toNat = 10 + i := by
  have hlt : i < 32 := hi
  rw [ipFor, poolBase, UInt8.toNat_add, UInt8.toNat_ofNat']
  simp only [UInt8.reduceToNat]
  omega

/-- The slots have different addresses. -/
theorem ipFor_inj {i j : ℕ} (hi : i < poolLen) (hj : j < poolLen) (h : ipFor i = ipFor j) :
    i = j := by
  have hd := d_ipFor hi
  rw [h, d_ipFor hj] at hd
  omega

/-- Every slot has its address in the pool, and none has the server's. -/
theorem ipFor_range {i : ℕ} (hi : i < poolLen) : (ipFor i).a = 192 ∧ (ipFor i).b = 168 ∧
    (ipFor i).c = 4 ∧ 10 ≤ (ipFor i).d ∧ (ipFor i).d ≤ 41 ∧ ipFor i ≠ serverIp := by
  have hlt : i < 32 := hi
  have hd := d_ipFor hi
  refine ⟨rfl, rfl, rfl, ?_, ?_, ?_⟩
  · rw [UInt8.le_iff_toNat_le, hd]
    exact Nat.le_add_right 10 i
  · rw [UInt8.le_iff_toNat_le, hd]
    exact show 10 + i ≤ 41 by omega
  · intro heq
    rw [heq] at hd
    exact absurd hd (show 1 ≠ 10 + i by omega)

end DhcpServer

/-! ### Any sequence of requests -/

/-- A request with its reply. -/
structure DhcpExchange where
  dnsOffer : UInt32
  req : List UInt8
  reply : Option (List UInt8 × ℕ)
  deriving DecidableEq, Repr

/-- The reply is an OFFER or an ACK that gives `ip` to `mac`. -/
def DhcpExchange.Grants [DhcpCodecOps] (x : DhcpExchange) (mac : Vector UInt8 6)
    (ip : Ipv4Address) : Prop :=
  ∃ type reply, (type = .offer ∨ type = .ack) ∧ x.reply = some reply ∧
    DhcpServer.Tells type mac ip reply

/-- The server from `DhcpServer::new()`, under any requests. -/
def dhcpSystem [DhcpCodecOps] : System DhcpServer DhcpExchange where
  init s := s = .new
  step s x s' := s.buildReply x.dnsOffer x.req = (s', x.reply)

/-- A pool of leases is sound: what the replies so far have said is what the table holds. -/
structure LeaseService [DhcpCodecOps] (tr : List DhcpExchange) (s : DhcpServer) : Prop where
  /-- The table does not hold a MAC twice. -/
  once : ∀ (i j : ℕ) mac, s.leases[i]? = some (some mac) → s.leases[j]? = some (some mac) → i = j
  /-- Different MACs are not given the same address. -/
  injective : ∀ x ∈ tr, ∀ y ∈ tr, ∀ mac mac' ip, x.Grants mac ip → y.Grants mac' ip → mac = mac'
  /-- A MAC is always told the same address, and still has it. -/
  stable : ∀ x ∈ tr, ∀ y ∈ tr, ∀ mac ip ip', x.Grants mac ip → y.Grants mac ip' → ip = ip'
  current : ∀ x ∈ tr, ∀ mac ip, x.Grants mac ip → (ip, mac) ∈ s.activeLeases
  /-- The addresses are `192.168.4.10` to `192.168.4.41`. -/
  range : ∀ x ∈ tr, ∀ mac ip, x.Grants mac ip →
    ip.a = 192 ∧ ip.b = 168 ∧ ip.c = 4 ∧ 10 ≤ ip.d ∧ ip.d ≤ 41 ∧ ip ≠ serverIp
  /-- A reply is an OFFER to a DISCOVER or an ACK to a REQUEST, and to the client that asked. -/
  answers : ∀ x ∈ tr, ∀ reply, x.reply = some reply → ∃ req type ip, DhcpServer.Asks x.req req ∧
    DhcpServer.replyType req.messageType = some type ∧
    DhcpServer.Tells type req.clientHardwareAddress ip reply
  /-- Other messages, and what is not a message, change nothing. -/
  ignores : ∀ dnsOffer reqBytes, (∀ req, ¬ DhcpServer.Asks reqBytes req) →
    s.buildReply dnsOffer reqBytes = (s, none)
  /-- A known MAC is answered and changes nothing. -/
  known : ∀ dnsOffer reqBytes req, DhcpServer.Asks reqBytes req →
    some req.clientHardwareAddress ∈ s.leases →
    ∃ reply, s.buildReply dnsOffer reqBytes = (s, some reply) ∧
      ∃ ip, DhcpExchange.Grants ⟨dnsOffer, reqBytes, some reply⟩ req.clientHardwareAddress ip
  /-- Once all slots are held an unknown MAC gets no reply and changes nothing. -/
  full : none ∉ s.leases → ∀ dnsOffer reqBytes req, DhcpServer.Asks reqBytes req →
    some req.clientHardwareAddress ∉ s.leases → s.buildReply dnsOffer reqBytes = (s, none)

section Runs

variable [DhcpCodecOps]

open FirstFit

/-- One reply grants one address to one client. -/
theorem DhcpExchange.Grants.unique {x : DhcpExchange} {reply : List UInt8 × ℕ}
    {mac mac' : Vector UInt8 6} {ip ip' : Ipv4Address} {type : DhcpMessageType}
    (h : x.Grants mac ip) (hreply : x.reply = some reply)
    (h' : DhcpServer.Tells type mac' ip' reply) : mac = mac' ∧ ip = ip' := by
  obtain ⟨_, reply', -, hreply', q, hq, -, rfl, rfl⟩ := h
  obtain ⟨q', hq', -, rfl, rfl⟩ := h'
  rw [hreply] at hreply'
  cases hreply'
  rw [hq] at hq'
  cases hq'
  exact ⟨rfl, rfl⟩

variable [LawfulDhcpCodec]

/-- **Everything a step can do**: nothing, or the client takes its slot and is told its address. -/
theorem dhcp_step {s s' : DhcpServer} {x : DhcpExchange} (h : dhcpSystem.step s x s') :
    (s' = s ∧ x.reply = none) ∨
    ∃ req i reply type, DhcpServer.Asks x.req req ∧
      claim s.leases req.clientHardwareAddress = (s'.leases, some i) ∧ x.reply = some reply ∧
      DhcpServer.replyType req.messageType = some type ∧
      DhcpServer.Tells type req.clientHardwareAddress (ipFor i) reply := by
  have hstep : s.buildReply x.dnsOffer x.req = (s', x.reply) := h
  by_cases hasks : ∃ r, DhcpServer.Asks x.req r
  · obtain ⟨req, hasks⟩ := hasks
    rcases s.buildReply_cases x.dnsOffer hasks with
      ⟨i, s₁, reply, type, hclaim, hbuild, htype, htells⟩ | ⟨-, hbuild⟩
    · rw [hstep, Prod.mk.injEq] at hbuild
      obtain ⟨rfl, hreply⟩ := hbuild
      exact .inr ⟨req, i, reply, type, hasks, hclaim, hreply, htype, htells⟩
    · rw [hstep, Prod.mk.injEq] at hbuild
      exact .inl hbuild
  · rw [s.buildReply_ignores x.dnsOffer (not_exists.1 hasks), Prod.mk.injEq] at hstep
    exact .inl ⟨hstep.1.symm, hstep.2.symm⟩

/-- **The run invariant**: no MAC has two slots, and every grant so far is a slot held. -/
theorem dhcp_invariant {tr : List DhcpExchange} {s : DhcpServer} (h : dhcpSystem.Run tr s) :
    Single s.leases ∧
      ∀ x ∈ tr, ∀ mac ip, x.Grants mac ip → ∃ i, Held s.leases i mac ∧ ip = ipFor i := by
  refine h.induction (J := fun tr s => Single s.leases ∧
    ∀ x ∈ tr, ∀ mac ip, x.Grants mac ip → ∃ i, Held s.leases i mac ∧ ip = ipFor i) ?_ ?_
  · rintro s rfl
    exact ⟨single_replicate poolLen, by simp⟩
  · intro tr s x s' _ ⟨hsingle, hgrants⟩ hstep
    rcases dhcp_step hstep with ⟨rfl, hnone⟩ | ⟨req, i, reply, type, -, hclaim, hreply, -, htells⟩
    · refine ⟨hsingle, ?_⟩
      intro y hy mac ip hgrant
      rcases List.mem_append.1 hy with hy | hy
      · exact hgrants y hy mac ip hgrant
      · obtain rfl := List.mem_singleton.1 hy
        obtain ⟨_, _, -, hsome, -⟩ := hgrant
        rw [hnone] at hsome
        cases hsome
    · have hkeeps := keeps_claim s.leases req.clientHardwareAddress
      have hsingle' := hsingle.claim req.clientHardwareAddress
      rw [hclaim] at hkeeps hsingle'
      refine ⟨hsingle', ?_⟩
      intro y hy mac ip hgrant
      rcases List.mem_append.1 hy with hy | hy
      · obtain ⟨j, hj, rfl⟩ := hgrants y hy mac ip hgrant
        exact ⟨j, hkeeps j mac hj, rfl⟩
      · obtain rfl := List.mem_singleton.1 hy
        obtain ⟨rfl, rfl⟩ := hgrant.unique hreply htells
        exact ⟨i, held_claim hclaim, rfl⟩

/-- **The leases are injective and stable** over any sequence of requests. -/
theorem lease_service {tr : List DhcpExchange} {s : DhcpServer} (h : dhcpSystem.Run tr s) :
    LeaseService tr s := by
  obtain ⟨hsingle, hgrants⟩ := dhcp_invariant h
  have hlt : ∀ {i mac}, Held s.leases i mac → i < poolLen := fun hi => s.size ▸ hi.lt_length
  refine ⟨hsingle, ?_, ?_, ?_, ?_, ?_, ?_, ?_, ?_⟩
  · intro x hx y hy mac mac' ip hgx hgy
    obtain ⟨i, hi, rfl⟩ := hgrants x hx mac ip hgx
    obtain ⟨j, hj, heq⟩ := hgrants y hy mac' _ hgy
    obtain rfl := DhcpServer.ipFor_inj (hlt hi) (hlt hj) heq
    exact held_unique hi hj
  · intro x hx y hy mac ip ip' hgx hgy
    obtain ⟨i, hi, rfl⟩ := hgrants x hx mac ip hgx
    obtain ⟨j, hj, rfl⟩ := hgrants y hy mac ip' hgy
    rw [hsingle i j mac hi hj]
  · intro x hx mac ip hg
    exact DhcpServer.mem_activeLeases.2 (hgrants x hx mac ip hg)
  · intro x hx mac ip hg
    obtain ⟨i, hi, rfl⟩ := hgrants x hx mac ip hg
    exact DhcpServer.ipFor_range (hlt hi)
  · intro x hx reply hreply
    obtain ⟨pre, post, rfl⟩ := List.append_of_mem hx
    obtain ⟨s₁, s₂, -, hstep⟩ := h.split
    rcases dhcp_step hstep with ⟨-, hnone⟩ | ⟨req, i, reply', type, hasks, -, hsome, htype, htells⟩
    · rw [hreply] at hnone
      cases hnone
    · rw [hreply] at hsome
      cases hsome
      exact ⟨req, type, ipFor i, hasks, htype, htells⟩
  · intro dnsOffer reqBytes hnot
    exact s.buildReply_ignores dnsOffer hnot
  · intro dnsOffer reqBytes req hasks hmem
    obtain ⟨i, hclaim⟩ := claim_of_mem hmem
    obtain ⟨s', reply, type, hs, hbuild, htype, htells⟩ :=
      DhcpServer.buildReply_of_claim dnsOffer hasks hclaim
    rw [DhcpServer.ext_leases hs] at hbuild
    exact ⟨reply, hbuild, ipFor i, type, reply, DhcpServer.replyType_eq_some htype, rfl, htells⟩
  · intro hfull dnsOffer reqBytes req hasks hnot
    rcases s.buildReply_cases dnsOffer hasks with ⟨i, s', _, _, hclaim, -⟩ | ⟨-, hbuild⟩
    · rw [claim_full hfull hnot, Prod.mk.injEq] at hclaim
      cases hclaim.2
    · exact hbuild

end Runs

/-- What a client without an address sends. -/
def clientRepr (type : DhcpMessageType) (mac : Vector UInt8 6) : DhcpRepr where
  messageType := type
  transactionId := 0x3903f326
  secs := 0
  clientHardwareAddress := mac
  clientIp := .unspecified
  yourIp := .unspecified
  serverIp := .unspecified
  router := none
  subnetMask := none
  relayAgentIp := .unspecified
  broadcast := true
  requestedIp := none
  clientIdentifier := none
  serverIdentifier := none
  parameterRequestList := none
  dnsServers := none
  maxSize := none
  leaseDuration := none
  renewDuration := none
  rebindDuration := none
  additionalOptions := []

def clientRequest (type : DhcpMessageType) (mac : Vector UInt8 6) : List UInt8 :=
  DhcpWire.fixed (clientRepr type mac) ++ DhcpWire.options (clientRepr type mac)

theorem asks_clientRequest {type : DhcpMessageType} (mac : Vector UInt8 6)
    (h : type = .discover ∨ type = .request) :
    ∃ req, @DhcpServer.Asks wireCodec (clientRequest type mac) req ∧ req.messageType = type ∧
      req.clientHardwareAddress = mac := by
  obtain ⟨req, hparse, htype, hmac, -⟩ := DhcpWire.parse_bytes (clientRepr type mac)
  have htype' : req.messageType = type := by
    rw [htype]
    rcases h with rfl | rfl <;> rfl
  refine ⟨req, ⟨?_, hparse, ?_⟩, htype', hmac⟩
  · refine decide_eq_true ?_
    rw [clientRequest, List.length_append, DhcpWire.length_fixed]
    exact Nat.le_add_right 240 _
  · rw [htype']
    rcases h with rfl | rfl <;> rfl

/-- A DISCOVER of one client and a REQUEST of another, with the replies of the server. -/
theorem lease_service_two_clients :
    ∃ x y s, @LeaseService wireCodec [x, y] s ∧
      x.req = clientRequest .discover #v[2, 0, 0, 0, 0, 7] ∧
      y.req = clientRequest .request #v[2, 0, 0, 0, 0, 9] ∧
      @DhcpExchange.Grants wireCodec x #v[2, 0, 0, 0, 0, 7] ⟨192, 168, 4, 10⟩ ∧
      @DhcpExchange.Grants wireCodec y #v[2, 0, 0, 0, 0, 9] ⟨192, 168, 4, 11⟩ := by
  let _ := wireCodec
  have := wireCodec_lawful
  obtain ⟨req, hasks, htype, hmac⟩ := asks_clientRequest #v[2, 0, 0, 0, 0, 7] (.inl rfl)
  obtain ⟨req', hasks', htype', hmac'⟩ := asks_clientRequest #v[2, 0, 0, 0, 0, 9] (.inr rfl)
  have hclaim : FirstFit.claim DhcpServer.new.leases req.clientHardwareAddress =
      (some #v[2, 0, 0, 0, 0, 7] :: List.replicate 31 none, some 0) := by
    rw [hmac]
    decide
  obtain ⟨s, reply, type, hs, hbuild, ht, htells⟩ :=
    DhcpServer.buildReply_of_claim 0x08080808 hasks hclaim
  have hclaim' : FirstFit.claim s.leases req'.clientHardwareAddress =
      (some #v[2, 0, 0, 0, 0, 7] :: some #v[2, 0, 0, 0, 0, 9] :: List.replicate 30 none,
        some 1) := by
    rw [hs, hmac']
    decide
  obtain ⟨s', reply', type', -, hbuild', ht', htells'⟩ :=
    DhcpServer.buildReply_of_claim 0x08080808 hasks' hclaim'
  refine ⟨⟨0x08080808, _, some reply⟩, ⟨0x08080808, _, some reply'⟩, s',
    lease_service (((System.Run.init rfl).snoc hbuild).snoc hbuild'), rfl, rfl, ?_, ?_⟩
  · exact ⟨type, reply, DhcpServer.replyType_eq_some ht, rfl, hmac ▸ htells⟩
  · exact ⟨type', reply', DhcpServer.replyType_eq_some ht', rfl, hmac' ▸ htells'⟩

end Pico10BaseT
