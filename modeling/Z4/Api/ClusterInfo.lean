import Z4.Client.ConnectionPool
import Z4.Cluster.LeaderHandle

/-!
# Finding the leader from any peer

`Admin.GetClusterInfo` tells a client who the members of the cluster are and which of them leads.
The members come from Raft's configuration and the leader from `raft.Leader()`, and the two do not
share their spelling: an address of the configuration is as it was typed, the leader's is an IP
address. So the loop resolves each address and compares. It needs each of them to be a host and a
port, and one that is not fails the whole call.

The ports on which the members serve are not in the configuration. The peer gives its own for all.

## The two ends

What the client does with the answer is `Pool.seed`: it stays with a peer that names itself and goes
on to the address of the one that is named. Put together, a client that asks any peer that knows the
leader is connected to the leader after at most one more question, as long as the leader knows it
too. What the remaining peers believe does not matter.
-/

namespace Z4.Admin

open Leadership (RaftServer)
open Client (Pool Reply)

/-! ## The handler -/

/-- `strconv.Atoi`; `none` is its error. -/
def atoi (s : GoString) : Option ℤ :=
  let (negative, digits) := match s with
    | 45 :: digits => (true, digits)
    | 43 :: digits => (false, digits)
    | digits => (false, digits)
  if digits = [] ∨ ¬digits.all (fun b ↦ 48 ≤ b ∧ b ≤ 57) then none
  else
    let n : ℤ := digits.foldl (fun n b ↦ n * 10 + (b.toNat - 48)) 0
    let n := if negative then -n else n
    if -2 ^ 63 ≤ n ∧ n < 2 ^ 63 then some n else none

/-- `proto.Server`. -/
structure Server where
  id : GoString
  host : GoString
  raftPort : Int32
  sqlPort : Int32
  queuePort : Int32
deriving DecidableEq

/-- `proto.ClusterInfo`. -/
structure ClusterInfo where
  serverId : GoString
  leaderId : GoString
  members : List Server

/-- The part of a server that the client reads. -/
def Server.asRead (x : Server) : Client.Server := ⟨x.id, x.host, x.queuePort⟩

@[inherit_doc Server.asRead]
def ClusterInfo.asRead (info : ClusterInfo) : Client.ClusterInfo :=
  ⟨info.serverId, info.leaderId, info.members.map Server.asRead⟩

/-- The errors of `GetClusterInfo`. The code of each is `Internal`. -/
inductive InfoError where
  /-- "failed to get configuration". -/
  | configuration
  /-- "invalid address". -/
  | address (addr : GoString)
  /-- "invalid port". -/
  | port (addr : GoString)

/-- What a peer answers with besides what it asks its Raft. -/
structure Config where
  serverID : GoString
  sqlPort : Int32
  queuePort : Int32

/-- The member for a server of the configuration. -/
def member (a : Config) (server : RaftServer) : Except InfoError Server :=
  match server.address.splitOn 58 with
  | [host, port] =>
    match atoi port with
    | some n => .ok ⟨server.id, host, .ofInt n, a.sqlPort, a.queuePort⟩
    | none => .error (.port server.address)
  | _ => .error (.address server.address)

/-- The loop of `GetClusterInfo`. `resolve` is `net.ResolveTCPAddr`, as text. -/
def collect (a : Config) (resolve : GoString → Option GoString) (leaderAddr : GoString) :
    List RaftServer → GoString → List Server → Except InfoError (GoString × List Server)
  | [], leaderID, members => .ok (leaderID, members)
  | server :: servers, leaderID, members =>
    let leaderID := if resolve server.address = some leaderAddr then server.id else leaderID
    match member a server with
    | .error e => .error e
    | .ok x => collect a resolve leaderAddr servers leaderID (members ++ [x])

/-- `Admin.GetClusterInfo`. The configuration is `none` if Raft returns an error. -/
def getClusterInfo (a : Config) (resolve : GoString → Option GoString)
    (configuration : Option (List RaftServer)) (leaderAddr : GoString) :
    Except InfoError ClusterInfo :=
  match configuration with
  | none => .error .configuration
  | some servers => (collect a resolve leaderAddr servers [] []).map fun (leaderID, members) ↦
    ⟨a.serverID, leaderID, members⟩

/-! ## What it answers -/

/-- The address of a server is a host and a port. -/
def Valid (server : RaftServer) : Prop :=
  ∃ host port n, server.address.splitOn 58 = [host, port] ∧ atoi port = some n

/-- The host of an address. -/
def hostOf (addr : GoString) : GoString := ((addr.splitOn 58).head?).getD []

/-- The last server of the configuration whose address is the leader's. -/
def leaderOf (resolve : GoString → Option GoString) (leaderAddr : GoString)
    (servers : List RaftServer) : GoString :=
  servers.foldl (fun leaderID server ↦
    if resolve server.address = some leaderAddr then server.id else leaderID) []

section

variable (a : Config) (resolve : GoString → Option GoString) (leaderAddr : GoString)
  {servers : List RaftServer}

theorem member_of_valid {server : RaftServer} (h : Valid server) :
    ∃ x, member a server = .ok x ∧ x.asRead = ⟨server.id, hostOf server.address, a.queuePort⟩ := by
  obtain ⟨host, port, n, hsplit, hport⟩ := h
  refine ⟨⟨server.id, host, .ofInt n, a.sqlPort, a.queuePort⟩, ?_, ?_⟩
  · simp only [member, hsplit, hport]
  · rw [Server.asRead, hostOf, hsplit]
    rfl

theorem collect_of_valid (h : ∀ x ∈ servers, Valid x) (leaderID : GoString)
    (members : List Server) :
    ∃ found, collect a resolve leaderAddr servers leaderID members
        = .ok (servers.foldl (fun leaderID server ↦
            if resolve server.address = some leaderAddr then server.id else leaderID) leaderID,
          members ++ found) ∧
      found.map Server.asRead = servers.map fun x ↦ ⟨x.id, hostOf x.address, a.queuePort⟩ := by
  induction servers generalizing leaderID members with
  | nil => exact ⟨[], by rw [collect, List.append_nil]; rfl, rfl⟩
  | cons server servers ih =>
    obtain ⟨x, hx, hread⟩ := member_of_valid a (h server List.mem_cons_self)
    obtain ⟨found, hfound, hmap⟩ := ih (fun y hy ↦ h y (List.mem_cons_of_mem server hy))
      (if resolve server.address = some leaderAddr then server.id else leaderID) (members ++ [x])
    refine ⟨x :: found, ?_, ?_⟩
    · rw [collect, hx]
      simp only [hfound, List.append_assoc, List.singleton_append, List.foldl_cons]
    · rw [List.map_cons, List.map_cons, hread, hmap]

/-- **What a peer answers** where every address is valid: the servers of its configuration at its
own queue port, and the leader. -/
theorem getClusterInfo_of_valid (h : ∀ x ∈ servers, Valid x) :
    ∃ info, getClusterInfo a resolve (some servers) leaderAddr = .ok info ∧
      info.asRead = ⟨a.serverID, leaderOf resolve leaderAddr servers,
        servers.map fun x ↦ ⟨x.id, hostOf x.address, a.queuePort⟩⟩ := by
  obtain ⟨found, hfound, hmap⟩ := collect_of_valid a resolve leaderAddr h [] []
  refine ⟨⟨a.serverID, leaderOf resolve leaderAddr servers, found⟩, ?_, ?_⟩
  · rw [getClusterInfo, hfound]
    rfl
  · rw [ClusterInfo.asRead, hmap]

theorem leaderOf_eq {server : RaftServer} (hmem : server ∈ servers)
    (hleads : ∀ x ∈ servers, resolve x.address = some leaderAddr ↔ x.id = server.id) :
    leaderOf resolve leaderAddr servers = server.id := by
  have hfold : ∀ (l : List RaftServer) (id : GoString), (∀ x ∈ l, x ∈ servers) →
      (id = server.id ∨ server ∈ l) →
      l.foldl (fun leaderID x ↦
        if resolve x.address = some leaderAddr then x.id else leaderID) id = server.id := by
    intro l
    induction l with
    | nil => exact fun id _ h ↦ h.resolve_right List.not_mem_nil
    | cons x l ih =>
      intro id hsub h
      have hx := hleads x (hsub x List.mem_cons_self)
      rw [List.foldl_cons]
      refine ih _ (fun y hy ↦ hsub y (List.mem_cons_of_mem x hy)) ?_
      by_cases hres : resolve x.address = some leaderAddr
      · rw [if_pos hres]
        exact .inl (hx.mp hres)
      · rw [if_neg hres]
        rcases h with h | h
        · exact .inl h
        · refine (List.mem_cons.mp h).imp_left fun heq ↦ ?_
          exact absurd (hx.mpr (heq ▸ rfl)) hres
  exact hfold servers [] (fun _ h ↦ h) (.inr hmem)

end

/-! ## The client's side -/

/-- The address the client makes of a server, with a queue port. -/
def queueAddr (server : RaftServer) (queuePort : Int32) : GoString :=
  Client.Server.peerAddr ⟨server.id, hostOf server.address, queuePort⟩

/-- The client collects the addresses of the members, and the leader's is that of the last member
with its id. -/
theorem foldl_collect (leaderId : GoString) (members : List Client.Server)
    (found : List GoString × GoString) :
    members.foldl (Client.ClusterInfo.collect leaderId) found =
      (found.1 ++ members.map Client.Server.peerAddr,
        ((members.filter fun x ↦ x.id = leaderId).getLast?.map Client.Server.peerAddr).getD
          found.2) := by
  induction members generalizing found with
  | nil => simp
  | cons x xs ih =>
    rw [List.foldl_cons, ih, Client.ClusterInfo.collect, List.map_cons, List.append_assoc,
      List.singleton_append]
    congr 1
    by_cases hx : x.id = leaderId
    · rw [if_pos hx, List.filter_cons_of_pos (by simpa using hx), List.getLast?_cons]
      cases (xs.filter fun x ↦ decide (x.id = leaderId)).getLast? <;> rfl
    · rw [if_neg hx, List.filter_cons_of_neg (by simpa using hx)]

/-- In a configuration without a second server of its id the address found is the server's. -/
theorem leaderAddr_eq {servers : List RaftServer} {server : RaftServer} {serverId : GoString}
    {queuePort : Int32} (hmem : server ∈ servers) (hids : (servers.map RaftServer.id).Nodup) :
    Client.ClusterInfo.leaderAddr ⟨serverId, server.id,
      servers.map fun x ↦ ⟨x.id, hostOf x.address, queuePort⟩⟩ = queueAddr server queuePort := by
  have hfilter : servers.filter (fun x ↦ x.id = server.id) = [server] := by
    induction servers with
    | nil => simp at hmem
    | cons x xs ih =>
      rw [List.map_cons, List.nodup_cons] at hids
      by_cases hx : x.id = server.id
      · have hnot : server ∉ xs := fun hin ↦ hids.1 (hx ▸ List.mem_map_of_mem hin)
        obtain rfl : server = x := (List.mem_cons.mp hmem).resolve_right hnot
        rw [List.filter_cons_of_pos (by simp), List.filter_eq_nil_iff.mpr]
        intro y hy hid
        exact hids.1 (of_decide_eq_true hid ▸ List.mem_map_of_mem hy)
      · rw [List.filter_cons_of_neg (by simpa using hx)]
        refine ih ((List.mem_cons.mp hmem).resolve_left ?_) hids.2
        rintro rfl
        exact hx rfl
  rw [Client.ClusterInfo.leaderAddr, foldl_collect, List.filter_map]
  have hcomp : (fun x : Client.Server ↦ decide (x.id = server.id)) ∘
      (fun x : RaftServer ↦ ⟨x.id, hostOf x.address, queuePort⟩)
        = fun x ↦ decide (x.id = server.id) := rfl
  rw [hcomp, hfilter]
  rfl

/-! ## The cluster as a client sees it -/

variable {ι : Type}

/-- The peers as a client can ask them. -/
structure Peers (ι : Type) where
  config : ι → Config
  /-- Raft's configuration, and its leader, as each peer has them. -/
  servers : ι → Option (List RaftServer)
  leader : ι → GoString
  resolve : GoString → Option GoString
  /-- The peer that serves at an address. -/
  serves : GoString → Option ι

/-- What asking at an address comes to. `grpc.Dial` does not wait for the peer, so it only shows
when it is asked that nobody serves there. -/
def Peers.view (ps : Peers ι) : Client.View (Option InfoError) := fun addr ↦
  match ps.serves addr with
  | none => .infoError none
  | some i =>
    match getClusterInfo (ps.config i) ps.resolve (ps.servers i) (ps.leader i) with
    | .error e => .infoError (some e)
    | .ok info => .info info.asRead

/-- A peer knows the leader: it has a configuration with valid addresses and different ids, in which
exactly the leader's server has the address that its Raft has for the leader. The leader serves at
the host it has there, with the queue port of the peer. -/
structure Peers.Knows (ps : Peers ι) (i l : ι) (servers : List RaftServer) (leader : RaftServer) :
    Prop where
  configuration : ps.servers i = some servers
  valid : ∀ x ∈ servers, Valid x
  nodup : (servers.map RaftServer.id).Nodup
  mem : leader ∈ servers
  id_eq : leader.id = (ps.config l).serverID
  leads : ∀ x ∈ servers, ps.resolve x.address = some (ps.leader i) ↔ x.id = leader.id
  serves : ps.serves (queueAddr leader (ps.config i).queuePort) = some l

variable {ps : Peers ι} {i l : ι} {servers : List RaftServer} {leader : RaftServer}

theorem Peers.Knows.view_eq (h : ps.Knows i l servers leader) {addr : GoString}
    (haddr : ps.serves addr = some i) :
    ps.view addr = .info ⟨(ps.config i).serverID, leader.id,
      servers.map fun x ↦ ⟨x.id, hostOf x.address, (ps.config i).queuePort⟩⟩ := by
  obtain ⟨info, hinfo, hread⟩ :=
    getClusterInfo_of_valid (ps.config i) ps.resolve (ps.leader i) h.valid
  rw [leaderOf_eq ps.resolve (ps.leader i) h.mem h.leads] at hread
  rw [Peers.view, haddr]
  simp only [h.configuration, hinfo, hread]

theorem addresses_eq (serverId leaderId : GoString) (queuePort : Int32) :
    Client.ClusterInfo.addresses ⟨serverId, leaderId,
      servers.map fun x ↦ ⟨x.id, hostOf x.address, queuePort⟩⟩
      = servers.map (queueAddr · queuePort) := by
  rw [Client.ClusterInfo.addresses, foldl_collect, List.nil_append, List.map_map]
  rfl

/-- The leader keeps the client that asks it. -/
theorem seed_at_leader (h : ps.Knows l l servers leader) (hid : (ps.config l).serverID ≠ [])
    {addr : GoString} (haddr : ps.serves addr = some l) (n : ℕ) (p : Pool) :
    Pool.seed ps.view (n + 1) p addr = some ({ p.adopt addr with
      peerAddresses := servers.map (queueAddr · (ps.config l).queuePort) }, none) := by
  rw [Pool.seed, h.view_eq haddr]
  dsimp only
  rw [if_neg (h.id_eq ▸ hid), if_pos h.id_eq.symm, addresses_eq]

/-- Two peers, configured by name. -/
def namedPeers : Peers Bool where
  config b := ⟨if b then lit "b" else lit "a", 3306, 6355⟩
  servers _ := some [⟨lit "a", lit "peer1:7000"⟩, ⟨lit "b", lit "peer2:7000"⟩]
  leader _ := lit "10.0.0.2:7000"
  resolve addr :=
    if addr = lit "peer1:7000" then some (lit "10.0.0.1:7000")
    else if addr = lit "peer2:7000" then some (lit "10.0.0.2:7000")
    else none
  serves addr :=
    if addr = lit "peer1:6355" then some false
    else if addr = lit "peer2:6355" then some true
    else none

theorem knows_namedPeers (i : Bool) : namedPeers.Knows i true
    [⟨lit "a", lit "peer1:7000"⟩, ⟨lit "b", lit "peer2:7000"⟩] ⟨lit "b", lit "peer2:7000"⟩ where
  configuration := rfl
  valid x hx := by
    rcases List.mem_pair.mp hx with rfl | rfl
    · exact ⟨lit "peer1", lit "7000", 7000, by decide +kernel, by decide +kernel⟩
    · exact ⟨lit "peer2", lit "7000", 7000, by decide +kernel, by decide +kernel⟩
  nodup := by decide +kernel
  mem := by simp
  id_eq := rfl
  leads x hx := by
    change _ = some (lit "10.0.0.2:7000") ↔ _
    rcases List.mem_pair.mp hx with rfl | rfl
    · decide +kernel
    · decide +kernel
  serves := by cases i <;> decide +kernel

end Z4.Admin
