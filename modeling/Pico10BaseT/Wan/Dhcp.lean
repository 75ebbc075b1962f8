import Mathlib.Data.Set.Subsingleton
import Pico10BaseT.Conntrack.Basic

/-!
# The WAN client

`dhcp_apply` and the DNS probe of `wan.rs`.  A lease lives in the smoltcp interface (addresses and
default route), in the DNS socket (servers) and in `WanState`; `dhcp_apply` updates all three.

The DNS socket of smoltcp is a parameter (`DnsSocketOps`).  Of it the code relies on what
`LawfulDnsSocket` says: a slot taken by `start_query` is occupied until `get_query_result` gives its
final result, and only a socket with both slots occupied refuses a query.
-/

namespace Pico10BaseT

/-! ### The DNS socket -/

/-- What `get_query_result` returns. -/
inductive QueryResult
  | done (addrs : List Ipv4Address)
  | pending
  /-- NXDOMAIN, SERVFAIL or timeout. -/
  | failed
  deriving DecidableEq, Repr

/-- A DNS socket with states `σ` and query handles `H`.  The name and the type of the query are
constants of the code. -/
class DnsSocketOps (σ : Type) (H : outParam Type) where
  /-- The slots in use. -/
  occupied : σ → Set H
  /-- `start_query`; no handle is its error. -/
  startQuery : σ → σ × Option H
  getQueryResult : σ → H → σ × QueryResult
  updateServers : σ → List Ipv4Address → σ
  /-- What polling the interface may do to the queries: they complete or fail. -/
  advance : σ → σ → Prop

open DnsSocketOps

/-- What the code relies on of a DNS socket with two slots. -/
class LawfulDnsSocket (σ : Type) (H : outParam Type) [DnsSocketOps σ H] : Prop where
  start_some : ∀ (s s' : σ) (h : H), startQuery s = (s', some h) →
    h ∉ occupied s ∧ occupied s' = insert h (occupied s)
  start_none : ∀ s s' : σ, startQuery s = (s', none) →
    occupied s' = occupied s ∧ ∃ a ∈ occupied s, ∃ b ∈ occupied s, a ≠ b
  pending : ∀ (s s' : σ) (h : H), getQueryResult s h = (s', .pending) → occupied s' = occupied s
  final : ∀ (s s' : σ) (h : H) (r : QueryResult), getQueryResult s h = (s', r) → r ≠ .pending →
    occupied s' = occupied s \ {h}
  updateServers_occupied : ∀ (s : σ) (servers : List Ipv4Address),
    occupied (updateServers s servers) = occupied s
  advance_occupied : ∀ s s' : σ, DnsSocketOps.advance s s' → occupied s' = occupied s

/-! ### The client -/

/-- WAN client state. -/
structure WanState (κ H : Type) where
  /-- The leased address. -/
  addr : Option κ
  /-- Default gateway from the lease. -/
  gw : Option Ipv4Address
  /-- First DNS server from the lease. -/
  dns0 : Option Ipv4Address
  /-- In-flight DNS query handle, if any. -/
  dnsQuery : Option H
  /-- Last A record resolved. -/
  resolved : Option Ipv4Address

/-- The part of the smoltcp interface that a lease sets. -/
structure WanIface (κ : Type) where
  ipAddrs : List κ
  defaultRoute : Option Ipv4Address

/-- What `dhcp_apply` and the DNS probe work on. -/
structure WanClient (κ σ H : Type) where
  iface : WanIface κ
  dns : σ
  wan : WanState κ H

/-- What polling the dhcpv4 socket yields. -/
inductive DhcpEvent (κ : Type)
  | none
  | deconfigured
  | configured (address : κ) (router : Option Ipv4Address) (dnsServers : List Ipv4Address)

def WanState.new {κ H : Type} : WanState κ H := ⟨none, none, none, none, none⟩

namespace WanClient

variable {κ σ H : Type} [DnsSocketOps σ H]

/-- Apply dhcpv4 lease changes to the address, default route, and DNS servers. -/
def dhcpApply (c : WanClient κ σ H) : DhcpEvent κ → WanClient κ σ H
  | .none => c
  | .deconfigured =>
    { iface := { ipAddrs := [], defaultRoute := none }
      dns := updateServers c.dns []
      wan := .new }
  | .configured address router dnsServers =>
    { iface := { ipAddrs := [address], defaultRoute := router }
      dns := updateServers c.dns (dnsServers.take 4)
      wan :=
        { c.wan with
          addr := some address
          gw := router
          dns0 := dnsServers.head?
          -- servers may have changed: abandon any in-flight query
          dnsQuery := none } }

/-- Start a DNS query when none is in flight and a server is known. -/
def dnsStart (c : WanClient κ σ H) : WanClient κ σ H :=
  if c.wan.dnsQuery.isSome ∨ c.wan.dns0.isNone then c
  else
    match startQuery c.dns with
    | (dns, some handle) => { c with dns, wan := { c.wan with dnsQuery := some handle } }
    | (dns, none) => { c with dns }

/-- Harvest a finished DNS query: record the first A record and free the slot. -/
def dnsHarvest (c : WanClient κ σ H) : WanClient κ σ H :=
  match c.wan.dnsQuery with
  | none => c
  | some handle =>
    match getQueryResult c.dns handle with
    | (dns, .done addrs) =>
      { c with dns, wan := { c.wan with dnsQuery := none, resolved := addrs.head? } }
    | (dns, .pending) => { c with dns }
    | (dns, .failed) => { c with dns, wan := { c.wan with dnsQuery := none } }

end WanClient

end Pico10BaseT
