import DistributedSystems.Labrpc.Theorems.Network
import DistributedSystems.Tester.Group

namespace Tester

open Labrpc

variable {P σ π ε Req Res : Type} {srv srv' : Server σ π} {prog : Program P σ π ε Req Res}

namespace Server

variable {info : Info P} {p : P} {node : Option σ} {incarnation : Nat}

-- The network does not pass on the replies of this server any more.
def Fences (srv : Server σ π) (info : Info P) : Prop :=
  info.server < srv.incarnation ∨ srv.stage = .closed

structure Precedes (srv srv' : Server σ π) : Prop where
  incarnation : srv.incarnation ≤ srv'.incarnation
  closed      : srv.stage = .closed → srv'.stage = .closed ∨ srv.incarnation < srv'.incarnation

theorem Fences.mono (h : srv.Fences info) (hs : srv.Precedes srv')
    (hi : info.server ≤ srv.incarnation) :
    srv'.Fences info := by
  rcases h with h | h
  case inl => exact .inl (h.trans_le hs.incarnation)
  case inr =>
    rcases hs.closed h with h | h
    case inl => exact .inr h
    case inr => exact .inl (hi.trans_lt h)

-- The server looks like a process that is restarted when its persister is copied.
structure Shows (prog : Program P σ π ε Req Res) (p : P) (srv : Server σ π) (node : Option σ)
    (incarnation : Nat) :
    Prop where
  down    : srv.stage = .down → srv.daemon = none
  running : ∀ s, srv.running = some s → node = some s ∧ incarnation = srv.incarnation
  saved   : srv.stage = .down ∨ srv.stage = .closed →
    node = prog.start p (srv.saved.getD prog.persister) ∧
    incarnation = if srv.stage = .closed then srv.incarnation + 1 else srv.incarnation

theorem running_eq (h : srv.stage ≠ .closed) : srv.running = srv.daemon :=
  if_neg h

theorem Shows.closed (h : srv.Shows prog p node incarnation) (hc : srv.stage = .closed)
    (daemon : Option σ) :
    ({ srv with daemon } : Server σ π).Shows prog p node incarnation where
  down hd := by simp [hc] at hd
  running := by simp [Server.running, hc]
  saved   := h.saved

theorem Shows.live {s : σ} (h : srv.Shows prog p node incarnation) (hc : srv.stage ≠ .closed)
    (hs : srv.daemon = some s) (daemon : Option σ) :
    ({ srv with daemon } : Server σ π).Shows prog p daemon incarnation := by
  have hd : srv.stage ≠ .down := fun hd => by simp [h.down hd] at hs
  refine ⟨fun hx => absurd hx hd, fun s' hx => ?_, fun hx => hx.elim (absurd · hd) (absurd · hc)⟩
  exact ⟨(running_eq (by exact hc)).symm.trans hx, (h.running s (running_eq hc ▸ hs)).right⟩

end Server

-- What is known about a request to `callee`.
structure Tracked (rpc : Rpc P Res) (srv : Server σ π) (callee : P) (Replied : Res → Prop) :
    Prop where
  sent   : rpc.process = .sent → rpc.dispatch = .idle
  info   : ∀ info, rpc.info = some info → info.servername = callee ∧ info.server ≤ srv.incarnation
  holds  : ∀ reply, rpc.Holds reply → Replied reply ∨ ∀ info, rpc.info = some info → srv.Fences info
  passes : ∀ reply, rpc.Passes reply → Replied reply

namespace Tracked

variable {rpc rpc' : Rpc P Res} {callee : P} {Replied Replied' : Res → Prop}

theorem init : Tracked .init srv callee Replied where
  sent _   := rfl
  info     := by simp [Rpc.init]
  holds    := by simp [Rpc.init, Rpc.Holds]
  passes   := by simp [Rpc.init, Rpc.Passes]

theorem mono (h : Tracked rpc srv callee Replied) (hs : srv.Precedes srv')
    (hr : ∀ reply, Replied reply → Replied' reply) : Tracked rpc srv' callee Replied' where
  sent         := h.sent
  info i hi    := ⟨(h.info i hi).left, (h.info i hi).right.trans hs.incarnation⟩
  holds r hh   := (h.holds r hh).imp (hr r) fun hf i hi => (hf i hi).mono hs (h.info i hi).right
  passes r hp  := hr r (h.passes r hp)

-- The server has not been deleted when it is found.
theorem step {found : Option (Info P)} {dead : Info P → Bool} (h : Tracked rpc srv callee Replied)
    (hs : rpc.Stepped found dead rpc')
    (hf : ∀ info, found = some info → info.servername = callee ∧ info.server = srv.incarnation)
    (hd : ∀ info, info.servername = callee → dead info = false →
      srv.stage = .up ∧ info.server = srv.incarnation) :
    Tracked rpc' srv callee Replied where
  sent hp     := absurd hp hs.process_ne_sent
  info i hi   := by
    rcases hs.info with hx | ⟨_, hx⟩
    case inl => exact h.info i (hx ▸ hi)
    case inr => exact ⟨(hf i (hx ▸ hi)).left, (hf i (hx ▸ hi)).right.le⟩
  holds r hr  := by
    rcases hs.info with hx | ⟨hx, _⟩
    case inl => exact hx ▸ h.holds r (hs.holds hr)
    case inr =>
      -- Nothing is dispatched before the server has been found.
      rcases hs.holds hr with hr | hr | hr <;> simp [h.sent hx, hx] at hr
  passes r hr := by
    rcases hs.passes hr with hr | ⟨hr, i, hi, hx⟩
    case inl => exact h.passes r hr
    case inr =>
      obtain ⟨hu, he⟩ := hd i (h.info i hi).left hx
      refine (h.holds r hr).resolve_right fun hf => ?_
      rcases hf i hi with hf | hf
      case inl => exact Nat.ne_of_lt hf he
      case inr => simp [hu] at hf

-- The handler is executed, or its reply is on the way.
theorem dispatched {dispatch : Dispatch Res} (h : Tracked rpc srv callee Replied)
    (hd : rpc.dispatch ≠ .idle)
    (hr : ∀ reply, dispatch = .handled reply ∨ dispatch = .returned (some reply) →
      Replied reply ∨ ∀ info, rpc.info = some info → srv.Fences info) :
    Tracked { rpc with dispatch } srv callee Replied where
  sent hp    := absurd (h.sent hp) hd
  info       := h.info
  holds r hh := by
    rcases hh with hh | hh | hh
    case inl     => exact hr r (.inl hh)
    case inr.inl => exact hr r (.inr hh)
    case inr.inr => exact h.holds r (.inr (.inr hh))
  passes     := h.passes

end Tracked

structure Related (prog : Program P σ π ε Req Res) (g : Group P σ π Req Res)
    (t : Nodes P σ Req Res) : Prop where
  server      : ∀ p, (g.server p).Shows prog p (t.node p) (t.incarnation p)
  servers     : ∀ p m, g.net.servers p = some m → (g.server p).stage = .up ∧
    m = (g.server p).incarnation
  connections : ∀ endname, g.net.connections endname = some endname.snd.snd
  requests    : ∀ f ∈ g.calls, f.refused = false → f.call ∈ t.requests
  rpc         : ∀ k f, g.calls[k]? = some f →
    Tracked (g.net.rpc k) (g.server f.call.callee) f.call.callee
    fun reply => (f.call, reply) ∈ t.replies
  refused     : ∀ k f, g.calls[k]? = some f → f.refused = true → g.net.rpc k = .init
  fresh       : ∀ k, g.calls.length ≤ k → g.net.rpc k = .init

namespace Related

variable {g g' : Group P σ π Req Res} {t t' : Nodes P σ Req Res} {p : P}

theorem init [DecidableEq P] [DecidableEq Req] [DecidableEq Res] (prog : Program P σ π ε Req Res) :
    Related prog (group prog).init (nodes prog).init where
  server p        := ⟨fun _ => rfl, by simp [group, Server.running], fun _ => ⟨rfl, rfl⟩⟩
  servers         := by simp [group, Network.make]
  connections _   := rfl
  requests        := by simp [group]
  rpc             := by simp [group]
  refused         := by simp [group]
  fresh _ _       := rfl

-- Servers that are not up cannot be found.
theorem servers_eq_none (h : Related prog g t) (hp : (g.server p).stage ≠ .up) :
    g.net.servers p = none :=
  Option.eq_none_iff_forall_ne_some.mpr fun m hm => hp (h.servers p m hm).left

-- A reply that reaches its caller comes from the process that was called.
theorem replied {k : Nat} {f : Forward P Req} {reply : Res} (h : Related prog g t)
    (hk : g.calls[k]? = some f) (hr : g.returns k f = some (some reply)) :
    (f.call, reply) ∈ t.replies := by
  simp only [Group.returns] at hr
  split_ifs at hr
  case pos => cases hr
  case neg =>
    split at hr <;> cases hr
    case h_1 hp => exact (h.rpc k f hk).passes reply (.inr hp)

theorem net {net : Network (P × Nat × P) P Res} (h : Related prog g t)
    (hs : net.servers = g.net.servers) (hc : net.connections = g.net.connections)
    (hr : net.rpc = g.net.rpc) :
    Related prog { g with net } t :=
  ⟨h.server, hs ▸ h.servers, hc ▸ h.connections, h.requests, hr ▸ h.rpc, hr ▸ h.refused,
    hr ▸ h.fresh⟩

theorem append {calls : List (Forward P Req)} (h : Related prog g t)
    (hc : ∀ f ∈ calls, f.refused = false → f.call ∈ t.requests) :
    Related prog { g with calls := g.calls ++ calls } t := by
  have old {k f} (hk : (g.calls ++ calls)[k]? = some f) :
      g.calls[k]? = some f ∨ g.net.rpc k = .init := by
    by_cases hx : k < g.calls.length
    case pos => exact .inl (by rwa [List.getElem?_append_left hx] at hk)
    case neg => exact .inr (h.fresh k (by omega))
  refine ⟨h.server, h.servers, h.connections, fun f hf => ?_, fun k f hk => ?_, fun k f hk hr => ?_,
    fun k hk => ?_⟩
  · exact (List.mem_append.mp hf).elim (h.requests f) (hc f)
  · rcases old hk with hk | hk
    case inl => exact h.rpc k f hk
    case inr => exact hk ▸ .init
  · exact (old hk).elim (h.refused k f · hr) id
  · exact h.fresh k (by simp at hk; omega)

theorem returned {k : Nat} {f : Forward P Req} (h : Related prog g t) (hk : g.calls[k]? = some f) :
    Related prog { g with calls := g.calls.set k { f with returned := true } } t := by
  have old {j : Nat} {f' : Forward P Req}
      (hj : (g.calls.set k { f with returned := true })[j]? = some f') :
      ∃ f'' : Forward P Req, g.calls[j]? = some f'' ∧ f'.call = f''.call ∧
      f'.refused = f''.refused := by
    by_cases hx : k = j
    case neg => exact ⟨f', by rwa [List.getElem?_set_ne hx] at hj, rfl, rfl⟩
    case pos =>
      subst hx
      have hl := (List.getElem?_eq_some_iff.mp hk).fst
      rw [List.getElem?_set_self hl] at hj
      exact ⟨f, hk, by rw [←Option.some.inj hj], by rw [←Option.some.inj hj]⟩
  refine ⟨h.server, h.servers, h.connections, fun f' hf hr => ?_, fun j f' hj => ?_,
    fun j f' hj hr => ?_, fun j hj => h.fresh j (by simpa using hj)⟩
  · obtain ⟨j, hj⟩ := List.mem_iff_getElem?.mp hf
    obtain ⟨f'', hj, hc, hx⟩ := old hj
    exact hc ▸ h.requests f'' (List.mem_of_getElem? hj) (hx ▸ hr)
  · obtain ⟨f'', hj, hc, _⟩ := old hj
    simpa only [hc] using h.rpc j f'' hj
  · obtain ⟨f'', hj, _, hx⟩ := old hj
    exact h.refused j f'' hj (hx ▸ hr)

-- A request that is not the initial one has been made by a call.
theorem exists_call {k : Nat} (h : Related prog g t) (hk : g.net.rpc k ≠ .init) :
    ∃ f, g.calls[k]? = some f ∧ f.refused = false := by
  have hl : k < g.calls.length := by
    by_contra hl
    exact hk (h.fresh k (by omega))
  have hf : g.calls[k]? = some (g.calls.get ⟨k, hl⟩) := List.getElem?_eq_getElem hl
  refine ⟨_, hf, Bool.eq_false_iff.mpr fun hr => hk (h.refused k _ hf hr)⟩

theorem setRpc {k : Nat} {f : Forward P Req} {rpc : Rpc P Res} (h : Related prog g t)
    (hk : g.calls[k]? = some f) (hf : f.refused = false)
    (hr : Tracked rpc (g.server f.call.callee) f.call.callee fun reply =>
      (f.call, reply) ∈ t.replies) :
    Related prog { g with net := g.net.set k rpc } t := by
  refine ⟨h.server, h.servers, h.connections, h.requests, fun j f' hj => ?_, fun j f' hj hx => ?_,
    fun j hj => ?_⟩
  all_goals by_cases hjk : j = k
  · subst hjk
    cases hk.symm.trans hj
    simpa [Network.set] using hr
  · simpa [Network.set, hjk] using h.rpc j f' hj
  · subst hjk
    cases hk.symm.trans hj
    simp [hf] at hx
  · simpa [Network.set, hjk] using h.refused j f' hj hx
  · subst hjk
    simp [List.getElem?_eq_none hj] at hk
  · simpa [Network.set, hjk] using h.fresh j hj

theorem step {k : Nat} {f : Forward P Req} {a : Step} {rpc : Rpc P Res} (h : Related prog g t)
    (hk : g.calls[k]? = some f) (hf : f.refused = false)
    (hs : (g.net.rpc k).next (g.net.readEndnameInfo f.endname) (g.net.isServerDead f.endname) a =
      some rpc) :
    Related prog { g with net := g.net.set k rpc } t := by
  refine h.setRpc hk hf ((h.rpc k f hk).step (Rpc.stepped hs) (fun info hi => ?_) fun info hn hd =>
    ?_)
  · simp only [Network.readEndnameInfo, h.connections, Forward.endname,
      Option.ite_none_right_eq_some, Option.bind_eq_bind, Option.bind_some, Option.bind_eq_some_iff,
      Option.some.injEq] at hi
    obtain ⟨_, m, hm, rfl⟩ := hi
    exact ⟨rfl, (h.servers _ m hm).right⟩
  · simp only [Network.isServerDead, Bool.or_eq_false_iff, decide_eq_false_iff_not, not_not,
      hn] at hd
    exact h.servers _ _ hd.right

theorem dispatched {k : Nat} {dispatch : Dispatch Res} (h : Related prog g t)
    (hd : (g.net.rpc k).dispatch ≠ .idle)
    (hr : ∀ reply, dispatch = .returned (some reply) → (g.net.rpc k).dispatch = .handled reply)
    (hn : ∀ reply, dispatch ≠ .handled reply) :
    Related prog { g with net := g.net.set k { g.net.rpc k with dispatch } } t := by
  obtain ⟨f, hk, hf⟩ := h.exists_call (k := k) fun hx => hd (by rw [hx]; rfl)
  have ht := h.rpc k f hk
  refine h.setRpc hk hf (ht.dispatched hd fun reply hx => ht.holds reply (.inl (hr reply ?_)))
  exact hx.resolve_left (hn reply)

theorem reply {k : Nat} (h : Related prog g t) (hs : g.reply k = some g') : Related prog g' t := by
  simp only [Group.reply] at hs
  split at hs <;> cases hs
  case h_1 hd => exact h.dispatched (by simp [hd]) (by simp [hd]) (by simp)

theorem lose {k : Nat} (h : Related prog g t) (hs : g.lose k = some g') : Related prog g' t := by
  simp only [Group.lose, Option.bind_eq_bind, Option.bind_eq_some_iff] at hs
  obtain ⟨info, _, hs⟩ := hs
  split_ifs at hs
  split at hs <;> cases hs
  case h_1 hd => exact h.dispatched (by simp [hd]) (by simp) (by simp)
  case h_2 hd => exact h.dispatched (by simp [hd]) (by simp) (by simp)

variable [DecidableEq P]

theorem set {srv : Server σ π} (h : Related prog g t) (hs : (g.server p).Precedes srv)
    (hp : srv.Shows prog p (t'.node p) (t'.incarnation p))
    (hu : g.net.servers p = none ∨ srv.stage = (g.server p).stage ∧
      srv.incarnation = (g.server p).incarnation)
    (ht : ∀ q ≠ p, t'.node q = t.node q ∧ t'.incarnation q = t.incarnation q)
    (hq : ∀ call ∈ t.requests, call ∈ t'.requests) (hr : ∀ x ∈ t.replies, x ∈ t'.replies) :
    Related prog (g.set p srv) t' := by
  have hle q : (g.server q).Precedes ((g.set p srv).server q) := by
    by_cases hx : q = p
    case pos => subst hx; simpa [Group.set] using hs
    case neg => simpa [Group.set, hx] using ⟨le_rfl, .inl⟩
  refine ⟨fun q => ?_, fun q m hm => ?_, h.connections, fun f hf hx => hq _ (h.requests f hf hx),
    fun k f hk => (h.rpc k f hk).mono (hle _) fun _ => hr _, h.refused, h.fresh⟩
  all_goals by_cases hx : q = p
  · subst hx
    simpa [Group.set] using hp
  · simpa [Group.set, hx, ht q hx] using h.server q
  · subst hx
    rcases hu with hu | ⟨hu, hi⟩
    · simp [Group.set, hu] at hm
    · simpa [Group.set, hu, hi] using h.servers q m hm
  · simpa [Group.set, hx] using h.servers q m hm

-- The process itself does not change.
theorem setIdle {srv : Server σ π} (h : Related prog g t) (hs : (g.server p).Precedes srv)
    (hp : srv.Shows prog p (t.node p) (t.incarnation p))
    (hu : g.net.servers p = none ∨ srv.stage = (g.server p).stage ∧
      srv.incarnation = (g.server p).incarnation) :
    Related prog (g.set p srv) t :=
  h.set hs hp hu (fun _ _ => ⟨rfl, rfl⟩) (fun _ => id) fun _ => id

theorem startServer (h : Related prog g t) (hp : (g.server p).stage = .down) :
    Related prog (g.set p ((g.server p).startServer prog p)) t := by
  obtain ⟨hn, hi⟩ := (h.server p).saved (.inl hp)
  refine h.setIdle ⟨le_rfl, by simp [hp]⟩ ⟨by simp [Server.startServer], fun s hs => ?_,
    by simp [Server.startServer]⟩
    (.inl (h.servers_eq_none (by simp [hp])))
  simp only [Server.running, Server.startServer, reduceCtorEq, if_false] at hs
  exact ⟨hn.trans hs, by simpa [hp, Server.startServer] using hi⟩

theorem addServer (h : Related prog g t) (hp : (g.server p).stage = .starting) :
    Related prog { g.set p { g.server p with stage := .up } with
      net := g.net.addServer p (g.server p).incarnation } t := by
  have hs := h.server p
  have hu : Related prog (g.set p { g.server p with stage := .up }) t := by
    refine h.setIdle ⟨le_rfl, by simp [hp]⟩ ⟨by simp, fun s hx => hs.running s ?_, by simp⟩
      (.inl (h.servers_eq_none (by simp [hp])))
    simpa [Server.running, hp] using hx
  refine ⟨hu.server, fun q m hm => ?_, hu.connections, hu.requests, hu.rpc, hu.refused, hu.fresh⟩
  by_cases hq : q = p
  case pos =>
    subst hq
    simpa [Network.addServer, Group.set, eq_comm] using hm
  case neg => exact hu.servers q m (by simpa [Network.addServer, Group.set, hq] using hm)

theorem deleteServer (h : Related prog g t) (hp : (g.server p).stage = .up) :
    Related prog
      { g.set p { g.server p with stage := .deleted } with net := g.net.deleteServer p } t := by
  have hd : Related prog { g with net := g.net.deleteServer p } t := by
    refine ⟨h.server, fun q m hm => ?_, h.connections, h.requests, h.rpc, h.refused, h.fresh⟩
    by_cases hq : q = p
    case pos => simp [Network.deleteServer, hq] at hm
    case neg => exact h.servers q m (by simpa [Network.deleteServer, hq] using hm)
  refine hd.setIdle ⟨le_rfl, by simp [hp]⟩ ⟨by simp, fun s hx => (h.server p).running s ?_, by simp⟩
    (.inl (by simp [Network.deleteServer]))
  simpa [Server.running, hp] using hx

theorem kill (h : Related prog g t) (hp : (g.server p).stage = .closed) :
    Related prog (g.set p (g.server p).kill) t := by
  obtain ⟨hn, hi⟩ := (h.server p).saved (.inr hp)
  refine h.setIdle ⟨Nat.le_succ _, fun _ => .inr (Nat.lt_succ_self _)⟩
    ⟨fun _ => rfl, by simp [Server.running, Server.kill], fun _ => ⟨hn, ?_⟩⟩
      (.inl (h.servers_eq_none (by simp [hp])))
  simpa [Server.kill, hp] using hi

-- A daemon goes on after its persister has been copied, but only the tester can see what it does.
theorem closed (h : Related prog g t) (hp : (g.server p).stage = .closed) (daemon : Option σ) :
    Related prog (g.set p { g.server p with daemon }) t :=
  h.setIdle ⟨le_rfl, .inl⟩ ((h.server p).closed hp daemon) (.inr ⟨rfl, rfl⟩)

-- A daemon takes the step of its process.
theorem live {s : σ} (h : Related prog g t) (hp : (g.server p).stage ≠ .closed)
    (hs : (g.server p).daemon = some s) (daemon : Option σ)
    (ht : t'.node = Function.update t.node p daemon) (hi : t'.incarnation = t.incarnation)
    (hq : ∀ call ∈ t.requests, call ∈ t'.requests) (hr : ∀ x ∈ t.replies, x ∈ t'.replies) :
    Related prog (g.set p { g.server p with daemon }) t' := by
  refine h.set ⟨le_rfl, .inl⟩ ?_ (.inr ⟨rfl, rfl⟩) (fun q hx => ?_) hq hr
  · simpa [ht, hi] using (h.server p).live hp hs daemon
  · simp [ht, hi, hx]

variable [DecidableEq Req] [DecidableEq Res]

-- The process is restarted when its persister is copied, not when the next daemon starts.
theorem checkpointPersister {s : σ} (h : Related prog g t) (hp : (g.server p).stage = .deleted)
    (hs : (g.server p).daemon = some s) :
    ∃ t', (nodes prog).next t (.restart p) = some t' ∧
      Related prog (g.set p ((g.server p).checkpointPersister prog s)) t' := by
  obtain ⟨hn, hi⟩ := (h.server p).running s (by simpa [Server.running, hp] using hs)
  refine ⟨_, Option.bind_eq_some_iff.mpr ⟨s, hn, rfl⟩, ?_⟩
  refine h.set ⟨le_rfl, by simp [hp]⟩ ⟨by simp [Server.checkpointPersister], ?_, fun _ => ?_⟩
    (.inl (h.servers_eq_none (by simp [hp]))) (fun q hq => by simp [Nodes.set, hq])
    (fun _ => id) fun _ => id
  · simp [Server.running, Server.checkpointPersister]
  · simp [Nodes.set, Server.checkpointPersister, hi]

theorem act {e : ε} (h : Related prog g t) (hs : g.act prog p e = some g') :
    Related prog g' t ∨ ∃ t', (nodes prog).next t (.act p e) = some t' ∧ Related prog g' t' := by
  simp only [Group.act, Option.bind_eq_bind, Option.bind_eq_some_iff, Option.some.injEq,
    Prod.exists] at hs
  obtain ⟨s, hd, daemon, sent, ha, rfl⟩ := hs
  by_cases hc : (g.server p).stage = .closed
  case pos =>
    refine .inl ((h.closed hc daemon).append fun f hf hr => ?_)
    obtain ⟨_, _, rfl⟩ := List.mem_map.mp hf
    simp [hc] at hr
  case neg =>
    obtain ⟨hn, hi⟩ := (h.server p).running s (Server.running_eq hc ▸ hd)
    let requests := t.requests ++ sent.map fun x => ⟨p, x.fst, t.incarnation p, x.snd⟩
    have hl : Related prog (g.set p { g.server p with daemon }) { t.set p daemon with requests } :=
      h.live hc hd daemon rfl rfl (fun _ hx => List.mem_append_left _ hx) fun _ => id
    have hx : (nodes prog).next t (.act p e) = some { t.set p daemon with requests } :=
      Option.bind_eq_some_iff.mpr ⟨s, hn, Option.bind_eq_some_iff.mpr ⟨_, ha, rfl⟩⟩
    refine .inr ⟨_, hx, hl.append fun f hf _ => ?_⟩
    obtain ⟨⟨q, req⟩, hq, rfl⟩ := List.mem_map.mp hf
    exact List.mem_append_right _ (List.mem_map.mpr ⟨_, hq, by simp [hi]⟩)

theorem handle {k : Nat} (h : Related prog g t) (hs : g.handle prog k = some g') :
    Related prog g' t ∨ ∃ call t', (nodes prog).next t (.serve call) = some t' ∧
    Related prog g' t' := by
  simp only [Group.handle, Option.bind_eq_bind, Option.bind_eq_some_iff] at hs
  obtain ⟨f, hk, info, hi, hs⟩ := hs
  have ht := h.rpc k f hk
  have hf : f.refused = false := Bool.eq_false_iff.mpr fun hr => by
    simp [h.refused k f hk hr, Rpc.init] at hi
  rw [(ht.info info hi).left] at hs
  split at hs
  case h_2 => cases hs
  case h_1 hd =>
    split_ifs at hs
    obtain ⟨s, hds, hx⟩ := Option.bind_eq_some_iff.mp hs
    by_cases hc : (g.server f.call.callee).stage = .closed
    case pos =>
      split at hx <;> cases hx
      case h_2 => exact .inl (h.closed hc none)
      case h_1 s' reply _ =>
        have h' := h.closed hc (some s')
        refine .inl (h'.setRpc hk hf
          ((h'.rpc k f hk).dispatched (by simp [Group.set, hd]) fun _ _ => .inr fun _ _ => ?_))
        exact .inr (by simp [Group.set, hc])
    case neg =>
      obtain ⟨hn, _⟩ := (h.server _).running s (Server.running_eq hc ▸ hds)
      have hm := h.requests f (List.mem_of_getElem? hk) hf
      split at hx <;> cases hx
      case h_2 hx =>
        refine .inr ⟨f.call, t.set f.call.callee none, ?_,
          h.live hc hds none rfl rfl (fun _ => id) fun _ => id⟩
        simp [nodes, Nodes.next, Nodes.serve, hm, hn, hx]
      case h_1 s' reply hx =>
        have h' : Related prog
            (g.set f.call.callee { g.server f.call.callee with daemon := some s' })
            { t.set f.call.callee (some s') with replies := t.replies ++ [(f.call, reply)] } :=
          h.live hc hds (some s') rfl rfl (fun _ => id) fun _ hx => List.mem_append_left _ hx
        refine .inr ⟨f.call, _,
          by simp only [nodes, Nodes.next, Nodes.serve, hm, hn, hx, if_true, Option.bind_eq_bind,
          Option.bind_some],
          h'.setRpc hk hf ((h'.rpc k f hk).dispatched (by simp [Group.set, hd]) fun r hr =>
            .inl ?_)⟩
        simp at hr
        simp [hr]

theorem resume {k : Nat} (h : Related prog g t) (hs : g.resume prog k = some g') :
    Related prog g' t ∨
    ∃ call t', ((∃ reply, (nodes prog).next t (.returned call reply) = some t') ∨
      (nodes prog).next t (.failed call) = some t') ∧ Related prog g' t' := by
  simp only [Group.resume, Option.bind_eq_bind, Option.bind_eq_some_iff, Option.some.injEq,
    Option.ite_none_left_eq_some, not_or, not_not] at hs
  obtain ⟨f, hk, ⟨_, hm⟩, s, hd, reply, hr, daemon, hx, rfl⟩ := hs
  by_cases hc : (g.server f.call.caller).stage = .closed
  case pos => exact .inl ((h.closed hc daemon).returned hk)
  case neg =>
    obtain ⟨hn, hi⟩ := (h.server _).running s (Server.running_eq hc ▸ hd)
    simp only [Group.returns, if_neg hc] at hr
    split at hr <;> cases hr
    case h_1 hp =>
      have hl : Related prog (g.set f.call.caller { g.server f.call.caller with daemon })
          (t.set f.call.caller daemon) :=
        h.live hc hd daemon rfl rfl (fun _ => id) fun _ => id
      have hf : f.refused = false := Bool.eq_false_iff.mpr fun hr => by
        simp [h.refused k f hk hr, Rpc.init] at hp
      have hq := h.requests f (List.mem_of_getElem? hk) hf
      refine .inr ⟨f.call, _, ?_, hl.returned hk⟩
      cases reply
      case none => exact .inr (by simp [nodes, Nodes.next, Nodes.resume, hq, hn, hx, ←hm, hi])
      case some reply =>
        have hp : (f.call, reply) ∈ t.replies :=
          h.replied hk (by simp only [Group.returns, if_neg hc, hp])
        exact .inl ⟨reply, by simp [nodes, Nodes.next, Nodes.resume, hp, hn, hx, ←hm, hi]⟩

-- The processes act on the same occasions.
def Follows (a : Group.Event P ε) (a' : Nodes.Event P ε Req Res) : Prop :=
  ∀ p e, a' = .act p e → a = .act p e

theorem next {a : Group.Event P ε} (h : Related prog g t) (hs : (group prog).next g a = some g') :
    Related prog g' t ∨ ∃ a' t', Follows a a' ∧ (nodes prog).next t a' = some t' ∧
    Related prog g' t' := by
  cases a
  case act p e =>
    rcases h.act hs with h | ⟨t', ht, hr⟩
    · exact .inl h
    · exact .inr ⟨_, t', by simp [Follows], ht, hr⟩
  case handle k =>
    rcases h.handle hs with h | ⟨call, t', ht, hr⟩
    · exact .inl h
    · exact .inr ⟨_, t', by simp [Follows], ht, hr⟩
  case resume k =>
    rcases h.resume hs with h | ⟨call, t', ⟨reply, ht⟩ | ht, hr⟩
    · exact .inl h
    · exact .inr ⟨_, t', by simp [Follows], ht, hr⟩
    · exact .inr ⟨_, t', by simp [Follows], ht, hr⟩
  case checkpointPersister p =>
    simp only [group, Group.next, Option.ite_none_right_eq_some, Option.map_eq_some_iff] at hs
    obtain ⟨hp, s, hd, rfl⟩ := hs
    obtain ⟨t', ht, hr⟩ := h.checkpointPersister hp hd
    exact .inr ⟨_, t', by simp [Follows], ht, hr⟩
  all_goals refine .inl ?_
  case reply k => exact h.reply hs
  case lose k  => exact h.lose hs
  case net k a =>
    simp only [group, Group.next, Option.bind_eq_bind, Option.bind_eq_some_iff,
      Option.ite_none_left_eq_some, Network.next, Option.map_map, Option.map_eq_some_iff] at hs
    obtain ⟨f, hk, hf, rpc, hx, rfl⟩ := hs
    exact h.step hk (Bool.eq_false_iff.mpr hf) hx
  all_goals simp only [group, Group.next, Option.ite_none_right_eq_some, Option.some.injEq] at hs
  case reliable       => exact hs ▸ h.net rfl rfl rfl
  case longReordering => exact hs ▸ h.net rfl rfl rfl
  case enable         => exact hs ▸ h.net rfl rfl rfl
  case startServer    => exact hs.right ▸ h.startServer hs.left
  case addServer      => exact hs.right ▸ h.addServer hs.left
  case deleteServer   => exact hs.right ▸ h.deleteServer hs.left
  case kill           => exact hs.right ▸ h.kill hs.left

end Related

variable [DecidableEq P]

-- How a daemon that is running has come to its state.
inductive Becomes (prog : Program P σ π ε Req Res) (p : P) (a : Group.Event P ε) :
    Option σ → σ → Prop
  | start {o persister} : Becomes prog p a o (prog.start p persister)
  | same {s} : Becomes prog p a (some s) s
  | act {s e s' sent} :
    a = .act p e → prog.act s e = some (some s', sent) → Becomes prog p a (some s) s'
  | handle {s req s' reply} : prog.handle s req = some (s', reply) → Becomes prog p a (some s) s'
  | resume {s q req reply s'} :
    prog.resume s q req reply = some (some s') → Becomes prog p a (some s) s'

namespace Becomes

variable {g g' : Group P σ π Req Res} {a : Group.Event P ε} {p q : P} {s s' : σ}

-- The step does something to `q` only.
theorem frame (hr : (g'.server p).running = some s')
    (hg : g'.server = Function.update g.server q srv)
    (hq : p = q → srv.running = some s' → Becomes prog p a (g.server p).running s') :
    Becomes prog p a (g.server p).running s' := by
  by_cases hp : p = q
  case pos => exact hq hp (by simpa [hg, hp] using hr)
  case neg =>
    have hr : (g.server p).running = some s' := by simpa [hg, hp] using hr
    exact hr ▸ .same

theorem daemon {daemon : Option σ} (hr : (g'.server p).running = some s')
    (hs : (g.server q).daemon = some s)
    (hg : g'.server = Function.update g.server q { g.server q with daemon })
    (hq : p = q → daemon = some s' → Becomes prog p a (some s) s') :
    Becomes prog p a (g.server p).running s' := by
  refine frame hr hg fun hp hx => ?_
  simp only [Server.running, Option.ite_none_left_eq_some] at hx
  rw [hp, Server.running_eq hx.left, hs]
  exact hp ▸ hq hp hx.right

theorem next (hs : g.next prog a = some g') (hr : (g'.server p).running = some s') :
    Becomes prog p a (g.server p).running s' := by
  cases a
  case act q e =>
    simp only [Group.next, Group.act, Option.bind_eq_bind, Option.bind_eq_some_iff,
      Option.some.injEq, Prod.exists] at hs
    obtain ⟨s, hd, daemon, sent, ha, rfl⟩ := hs
    refine .daemon hr hd rfl fun hp hx => ?_
    subst hp hx
    exact .act rfl ha
  case handle k =>
    simp only [Group.next, Group.handle, Option.bind_eq_bind, Option.bind_eq_some_iff] at hs
    obtain ⟨f, _, info, _, hs⟩ := hs
    split at hs
    case h_2 => cases hs
    case h_1 =>
      split_ifs at hs
      obtain ⟨s, hd, hs⟩ := Option.bind_eq_some_iff.mp hs
      split at hs <;> cases hs
      case h_1 hx => exact .daemon hr hd rfl fun _ he => .handle (Option.some.inj he ▸ hx)
      case h_2    => exact .daemon hr hd rfl (by simp)
  case resume k =>
    simp only [Group.next, Group.resume, Option.bind_eq_bind, Option.bind_eq_some_iff,
      Option.some.injEq, Option.ite_none_left_eq_some] at hs
    obtain ⟨f, _, _, s, hd, reply, _, daemon, hx, rfl⟩ := hs
    exact .daemon hr hd rfl fun _ he => .resume (he ▸ hx)
  case checkpointPersister q =>
    simp only [Group.next, Option.ite_none_right_eq_some, Option.map_eq_some_iff] at hs
    obtain ⟨_, s, _, rfl⟩ := hs
    exact .frame hr rfl (by simp [Server.running, Server.checkpointPersister])
  case net k a =>
    simp only [Group.next, Option.bind_eq_bind, Option.bind_eq_some_iff,
      Option.ite_none_left_eq_some, Option.map_eq_some_iff] at hs
    obtain ⟨f, _, _, net, _, rfl⟩ := hs
    exact hr ▸ .same
  case reply k =>
    simp only [Group.next, Group.reply] at hs
    split at hs <;> cases hs
    exact hr ▸ .same
  case lose k =>
    simp only [Group.next, Group.lose, Option.bind_eq_bind, Option.bind_eq_some_iff,
      Option.ite_none_left_eq_some] at hs
    obtain ⟨info, _, _, hs⟩ := hs
    split at hs <;> cases hs <;> exact hr ▸ .same
  all_goals simp only [Group.next, Option.ite_none_right_eq_some, Option.some.injEq] at hs
  case reliable       => subst hs; exact hr ▸ .same
  case longReordering => subst hs; exact hr ▸ .same
  case enable         => subst hs; exact hr ▸ .same
  all_goals obtain ⟨hq, rfl⟩ := hs
  case startServer =>
    refine .frame hr rfl fun hp hx => ?_
    obtain rfl : prog.start _ _ = s' := by simpa [Server.running, Server.startServer] using hx
    exact hp ▸ .start
  case kill => exact .frame hr rfl (by simp [Server.running, Server.kill])
  -- The stages before the persister is copied make no difference to the daemon.
  all_goals
    refine .frame hr rfl fun hp hx => ?_
    have hr : (g.server p).running = some s' := by simpa [Server.running, hp, hq] using hx
    exact hr ▸ .same

end Becomes

variable [DecidableEq Req] [DecidableEq Res]

-- The tester can do no more to the processes of a program than lose messages and restart them with
-- what they have persisted. In particular the effects of a call that has returned are not lost.
theorem exists_nodes (b : (group prog).Behavior) :
    ∃ e : (nodes prog).Behavior,
      (∀ i p s, ((b.state i).server p).running = some s →
        (e.state i).node p = some s ∧
        (e.state i).incarnation p = ((b.state i).server p).incarnation) ∧
      (∀ i k f reply, (b.state i).calls[k]? = some f → (b.state i).returns k f = some (some reply) →
        (f.call, reply) ∈ (e.state i).replies) ∧
      ∀ i p a, e.label i = some (.act p a) → b.label i = some (.act p a) := by
  obtain ⟨e, hr, hl⟩ := b.exists_related (Related.init prog) fun _ _ _ _ _ hs h => Related.next h hs
  refine ⟨e, fun i p => ((hr i).server p).running, fun i k f reply hk => (hr i).replied hk,
    fun i p a ha => ?_⟩
  obtain ⟨a', hb, hf⟩ := hl i _ ha
  exact hb.trans (congrArg some (hf p a rfl))

end Tester
