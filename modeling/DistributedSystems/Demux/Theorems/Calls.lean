import DistributedSystems.Demux.Basic

namespace Demux

-- The transport

theorem readLen_writeLen {n : Nat} {bytes : Bytes} (h : n < 2 ^ 32) :
    readLen (writeLen n ++ bytes) = some (n, bytes) := by
  simp only [readLen, writeLen, List.map_cons, List.map_nil, List.cons_append, List.nil_append,
    Option.some.injEq, Prod.mk.injEq, and_true, UInt8.toNat_ofNat']
  omega

theorem readLen_append {n : Nat} {bytes rest : Bytes} (h : readLen bytes = some (n, rest))
    (u : Bytes) :
    readLen (bytes ++ u) = some (n, rest ++ u) := by
  unfold readLen at h
  split at h <;> cases h
  rfl

namespace Codec

variable {c : Codec} {m : Msg} {bytes : Bytes}

theorem readCall_writeCall (h : (c.marshall m).length < 2 ^ 32) :
    c.readCall (c.writeCall m ++ bytes) = some (some m, bytes) := by
  simp [readCall, writeCall, List.append_assoc, readLen_writeLen h, c.unmarshall_marshall]

-- More bytes do not change a message that is complete.
theorem readCall_append {r : Option Msg} {rest : Bytes} (h : c.readCall bytes = some (r, rest))
    (u : Bytes) :
    c.readCall (bytes ++ u) = some (r, rest ++ u) := by
  simp only [readCall, Option.bind_eq_bind, Option.bind_eq_some_iff] at h ⊢
  obtain ⟨⟨n, bytes'⟩, hl, h⟩ := h
  refine ⟨_, readLen_append hl u, ?_⟩
  split_ifs at h with hn
  cases h
  have hn : n ≤ bytes'.length := not_lt.mp hn
  rw [if_neg (by simp only [List.length_append]; omega), List.take_append_of_le_length hn,
    List.drop_append_of_le_length hn]

end Codec

-- The bytes of these messages are on their way. Only a connection that was closed may have lost
-- some.
structure Wire (c : Codec) (isOpen : Bool) (bytes : Bytes) (ms : List Msg) : Prop where
  fits     : ∀ m ∈ ms, (c.marshall m).length < 2 ^ 32
  begins   : bytes <+: ms.flatMap c.writeCall
  complete : isOpen = true → bytes = ms.flatMap c.writeCall

namespace Wire

variable {c : Codec} {isOpen : Bool} {bytes : Bytes} {ms : List Msg} {m : Msg}

theorem nil : Wire c true [] [] :=
  ⟨by simp, by simp, by simp⟩

theorem write (h : Wire c isOpen bytes ms) (hm : (c.marshall m).length < 2 ^ 32)
    (ho : isOpen = true) :
    Wire c isOpen (bytes ++ c.writeCall m) (ms ++ [m]) := by
  have hb : bytes ++ c.writeCall m = (ms ++ [m]).flatMap c.writeCall := by simp [h.complete ho]
  refine ⟨?_, hb ▸ List.prefix_rfl, fun _ => hb⟩
  simpa [or_imp, forall_and] using ⟨h.fits, hm⟩

theorem cut (h : Wire c isOpen bytes ms) (n : Nat) : Wire c false (bytes.take n) ms :=
  ⟨h.fits, (List.take_prefix n bytes).trans h.begins, by simp⟩

theorem read {r : Option Msg} {rest : Bytes} (h : Wire c isOpen bytes ms)
    (hr : c.readCall bytes = some (r, rest)) :
    ∃ m ms', ms = m :: ms' ∧ r = some m ∧ Wire c isOpen rest ms' := by
  obtain ⟨u, hu⟩ := h.begins
  have hu' := Codec.readCall_append hr u
  cases ms
  case nil =>
    rw [hu] at hu'
    cases hu'
  case cons m ms =>
    rw [hu, List.flatMap_cons, Codec.readCall_writeCall (h.fits m (by simp))] at hu'
    simp only [Option.some.injEq, Prod.mk.injEq] at hu'
    obtain ⟨rfl, ht⟩ := hu'
    refine ⟨m, ms, rfl, rfl, fun m' hm => h.fits m' (by simp [hm]), ⟨u, ht.symm⟩, fun ho => ?_⟩
    have hb := h.complete ho
    rw [hb] at hu
    obtain rfl : u = [] := by simpa using hu
    simpa using ht.symm

end Wire

-- The protocol

def tagOf (k : Nat) : Ttag :=
  UInt32.ofNat (k + 1)

theorem tagOf_inj {j k : Nat} (h : tagOf j = tagOf k) (hj : j + 1 < 2 ^ 32) (hk : k + 1 < 2 ^ 32) :
    j = k := by
  have h := congrArg UInt32.toNat h
  simp only [tagOf, UInt32.toNat_ofNat'] at h
  omega

theorem tagOf_succ (k : Nat) : tagOf k + 1 = tagOf (k + 1) := by
  simp [tagOf, UInt32.ofNat_add]

def Phase.Pending (phase : Phase) : Prop :=
  phase = .registered ∨ phase = .waiting

variable {c : Codec} {s s' : Demux} {ms rs : List Msg} {j k : Nat} {x : Ttag × Bytes}

-- The request has been written.
def Asked (s : Demux) (x : Ttag × Bytes) : Prop :=
  ∃ k, s.calls[k]? = some x ∧ s.phase k ≠ .tagged ∧ s.phase k ≠ .registered

-- The handler works on the request of the call.
def Handles (s : Demux) (j k : Nat) : Prop :=
  ∃ x, s.handlers[j]? = some x ∧ s.calls[k]? = some x

def Replied (s : Demux) (k : Nat) (reply : Bytes × Bool) : Prop :=
  ∃ j, s.Handles j k ∧ s.result j = some reply

theorem Replied.mono {reply : Bytes × Bool} (h : s.Replied k reply)
    (hc : ∀ (k : Nat) x, s.calls[k]? = some x → s'.calls[k]? = some x)
    (hh : ∀ (j : Nat) x, s.handlers[j]? = some x → s'.handlers[j]? = some x)
    (hr : ∀ j x, s.result j = some x → s'.result j = some x) : s'.Replied k reply := by
  obtain ⟨j, ⟨x, hj, hk⟩, hx⟩ := h
  exact ⟨j, ⟨x, hh j x hj, hc k x hk⟩, hr j reply hx⟩

-- The calls and the map
structure Matched (s : Demux) : Prop where
  tags        : ∀ k x, s.calls[k]? = some x → x.fst = tagOf k
  nextTag     : s.clnt ≠ none → s.nextTag = tagOf s.calls.length
  bound       : s.calls.length < 2 ^ 32
  unused      : ∀ k, s.calls.length ≤ k → s.phase k = .tagged
  keys        : s.keys.Nodup
  callmap     : ∀ tag k, (tag, k) ∈ s.callmap → (∃ data, s.calls[k]? = some (tag, data)) ∧
    (s.phase k).Pending
  pending     : ∀ k, (s.phase k).Pending → (∃ tag, (tag, k) ∈ s.callmap) ∨
    ∃ r, s.channel = some (k, r)
  channel     : ∀ k r, s.channel = some (k, r) → (s.phase k).Pending ∧
    (∀ tag, (tag, k) ∉ s.callmap) ∧
    (s.outstanding = none → s.phase k = .waiting) ∧ ∀ x, r = some x → s.Replied k x
  returned    : ∀ k x, s.phase k = .returned (some x) → s.Replied k x
  outstanding : ∀ ts, s.outstanding = some ts → s.closed = true ∧ ts.Perm s.keys

-- The messages on the wires and the handlers between them
structure Carries (s : Demux) (ms rs : List Msg) : Prop where
  requests     : ∀ m ∈ ms, s.Asked (m.tag, m.data)
  handlers     : ∀ x ∈ s.handlers, s.Asked x
  replies      : ∀ r ∈ rs, ∃ j x, s.handlers[j]? = some x ∧ x.fst = r.tag ∧
    s.result j = some (r.data, r.ok) ∧
    s.written j = true
  nodup        : (ms.map Msg.tag ++ s.handlers.map Prod.fst).Nodup
  replied      : (rs.map Msg.tag).Nodup
  -- As long as the reader is in its loop, it has not removed the calls that are being worked on.
  requestsLive : s.outstanding = none → ∀ m ∈ ms, m.tag ∈ s.keys
  handlersLive : s.outstanding = none → ∀ j x, s.handlers[j]? = some x → s.written j = false →
    x.fst ∈ s.keys
  repliesLive  : s.outstanding = none → ∀ r ∈ rs, r.tag ∈ s.keys

-- The first message, until the server has read it.
def first (s : Demux) : List Msg :=
  match s.clnt, s.clntEnd with
  | some clnt, none => [⟨0, clnt, true⟩]
  | _, _            => []

-- Before and after the first message
structure Connected (s : Demux) : Prop where
  clnt    : s.clnt = none → s.nextTag = 0 ∧ s.calls = [] ∧ s.clntEnd = none
  clntEnd : ∀ clnt, s.clntEnd = some clnt → s.clnt = some clnt
  fatal   : s.fatal = true → s.clntEnd = none ∧ s.isOpen = false

structure Sound (c : Codec) (s : Demux) : Prop where
  connected : s.Connected
  matched   : s.Matched
  carries   : ∃ ms rs, Wire c s.isOpen s.toServer (s.first ++ ms) ∧ Wire c s.isOpen s.toClient rs ∧
    s.Carries ms rs

theorem Matched.calls_inj (h : s.Matched) {y : Ttag × Bytes} (hj : s.calls[j]? = some x)
    (hk : s.calls[k]? = some y) (hx : x.fst = y.fst) : j = k := by
  have hb := h.bound
  have hj' := (List.getElem?_eq_some_iff.mp hj).fst
  have hk' := (List.getElem?_eq_some_iff.mp hk).fst
  exact tagOf_inj (by rw [←h.tags j x hj, hx, h.tags k y hk]) (by omega) (by omega)

theorem lookup_of_mem_keys {tag : Ttag} (h : tag ∈ s.keys) :
    ∃ k, s.callmap.lookup tag = some k ∧ (tag, k) ∈ s.callmap := by
  cases hl : s.callmap.lookup tag
  case none =>
    obtain ⟨x, hx, rfl⟩ := List.mem_map.mp h
    simpa using List.lookup_eq_none_iff.mp hl x hx
  case some k =>
    obtain ⟨l₁, l₂, hk, _⟩ := List.lookup_eq_some_iff.mp hl
    exact ⟨k, rfl, by simp [hk]⟩

theorem Carries.handlers_inj (h : s.Carries ms rs) {i : Nat} {y : Ttag × Bytes}
    (hi : s.handlers[i]? = some x) (hj : s.handlers[j]? = some y) (hx : x.fst = y.fst) : i = j := by
  have hn := (List.nodup_append.mp h.nodup).right.left
  have hl : i < (s.handlers.map Prod.fst).length := by
    simpa using (List.getElem?_eq_some_iff.mp hi).fst
  exact (List.getElem?_inj hl hn).mp (by simp [hi, hj, hx])

theorem Asked.mono (h : s.Asked x)
    (hc : ∀ (k : Nat) x, s.calls[k]? = some x → s'.calls[k]? = some x)
    (hp : ∀ k, s.phase k ≠ .tagged → s.phase k ≠ .registered → s'.phase k ≠ .tagged ∧
      s'.phase k ≠ .registered) :
    s'.Asked x := by
  obtain ⟨k, hk, ht, hr⟩ := h
  exact ⟨k, hc k x hk, hp k ht hr⟩

-- A step of the client that neither reads nor writes.
theorem Carries.mono (h : s.Carries ms rs)
    (hc : ∀ (k : Nat) x, s.calls[k]? = some x → s'.calls[k]? = some x)
    (hp : ∀ k, s.phase k ≠ .tagged → s.phase k ≠ .registered → s'.phase k ≠ .tagged ∧
      s'.phase k ≠ .registered)
    (hh : s'.handlers = s.handlers) (hr : s'.result = s.result) (hw : s'.written = s.written)
    (hk : s'.outstanding = none → s.outstanding = none ∧ ∀ tag ∈ s.keys, tag ∈ s'.keys) :
    s'.Carries ms rs where
  requests m hm        := (h.requests m hm).mono hc hp
  handlers x hx        := (h.handlers x (hh ▸ hx)).mono hc hp
  replies              := by simpa only [hh, hr, hw] using h.replies
  nodup                := by simpa only [hh] using h.nodup
  replied              := h.replied
  requestsLive ho m hm := (hk ho).right _ (h.requestsLive (hk ho).left m hm)
  handlersLive ho j x hj hf := (hk ho).right _ (h.handlersLive (hk ho).left j x (hh ▸ hj) (hw ▸ hf))
  repliesLive ho r hr  := (hk ho).right _ (h.repliesLive (hk ho).left r hr)

-- A request is written.
theorem Carries.ask (h : s.Carries ms rs) {m : Msg} (ha : s.Asked (m.tag, m.data))
    (hn : m.tag ∉ ms.map Msg.tag ++ s.handlers.map Prod.fst)
    (hk : s.outstanding = none → m.tag ∈ s.keys) : s.Carries (ms ++ [m]) rs :=
  { h with
    requests := List.forall_mem_append.mpr ⟨h.requests, by simpa using ha⟩
    nodup := by
      rw [List.map_append, List.append_assoc]
      exact List.perm_middle.nodup_iff.mpr (List.nodup_cons.mpr ⟨hn, h.nodup⟩)
    requestsLive := fun ho =>
      List.forall_mem_append.mpr ⟨h.requestsLive ho, by simpa using hk ho⟩ }

-- A reply is written.
theorem Carries.answer (h : s.Carries ms rs) {r : Msg} (hj : s.handlers[j]? = some x)
    (hx : x.fst = r.tag) (hr : s.result j = some (r.data, r.ok)) (hw : s.written j = true)
    (hn : r.tag ∉ rs.map Msg.tag) (hk : s.outstanding = none → r.tag ∈ s.keys) :
    s.Carries ms (rs ++ [r]) :=
  { h with
    replies := List.forall_mem_append.mpr
      ⟨h.replies, List.forall_mem_singleton.mpr ⟨j, x, hj, hx, hr, hw⟩⟩
    replied := by
      rw [List.map_append]
      exact (List.perm_append_singleton _ _).nodup_iff.mpr (List.nodup_cons.mpr ⟨hn, h.replied⟩)
    repliesLive := fun ho =>
      List.forall_mem_append.mpr ⟨h.repliesLive ho, by simpa using hk ho⟩ }

theorem getElem?_append_of_some {α : Type} {l m : List α} {x : α} (h : l[k]? = some x) :
    (l ++ m)[k]? = some x := by
  rwa [List.getElem?_append_left (List.getElem?_eq_some_iff.mp h).fst]

theorem getElem?_concat {α : Type} {l : List α} {x y : α} (h : (l ++ [y])[k]? = some x) :
    l[k]? = some x ∨ k = l.length ∧ x = y := by
  grind

-- Nothing is called before the first message.
theorem Carries.eq_nil (h : s.Carries ms rs) (hc : s.calls = []) : ms = [] := by
  refine List.eq_nil_iff_forall_not_mem.mpr fun m hm => ?_
  obtain ⟨k, hk, _⟩ := h.requests m hm
  simp [hc] at hk

namespace Sound

theorem newDemuxClnt (h : s.Sound c) {clnt : Bytes} (ha : s.exceeds c (.newDemuxClnt clnt) = false)
    (hs : s.next c (.newDemuxClnt clnt) = some s') : Sound c s' := by
  obtain ⟨hf, hm, ms, rs, hw, hv, hc⟩ := h
  simp only [next, Option.ite_none_right_eq_some] at hs
  obtain ⟨hn, hs⟩ := hs
  obtain ⟨ht, hcalls, hend⟩ := hf.clnt hn
  split_ifs at hs with ho <;> cases hs
  case neg =>
    exact ⟨{ hf with fatal := fun _ => ⟨hend, by simpa using ho⟩ }, { hm with }, ms, rs, hw, hv,
      { hc with }⟩
  case pos =>
    obtain rfl := hc.eq_nil hcalls
    have hl : (c.marshall ⟨s.nextTag, clnt, true⟩).length < 2 ^ 32 := by simpa [exceeds] using ha
    refine ⟨⟨nofun, by simp [hend], hf.fatal⟩,
      { hm with nextTag := fun _ => by simp [ht, hcalls, tagOf] }, [], rs, ?_, hv, { hc with }⟩
    simpa [first, hn, hend, ht] using hw.write hl ho

theorem newDemuxSrv (h : s.Sound c) (hx : s.fatal = false) (hs : s.next c .newDemuxSrv = some s') :
    Sound c s' := by
  obtain ⟨hf, hm, ms, rs, hw, hv, hc⟩ := h
  simp only [next, Option.ite_none_right_eq_some] at hs
  obtain ⟨hend, hs⟩ := hs
  cases hr : c.readCall s.toServer <;> rw [hr] at hs
  case none =>
    simp only [Option.ite_none_left_eq_some, Option.some.injEq] at hs
    obtain ⟨ho, rfl⟩ := hs
    exact ⟨{ hf with fatal := fun _ => ⟨hend, by simpa using ho⟩ }, { hm with }, ms, rs, hw, hv,
      { hc with }⟩
  case some r =>
    obtain ⟨r, bytes⟩ := r
    obtain ⟨m, ms', hms, rfl, hw⟩ := hw.read hr
    cases hs
    rcases Option.eq_none_or_eq_some s.clnt with hn | ⟨clnt, hn⟩
    case inl => simp [first, hn, hc.eq_nil (hf.clnt hn).right.left] at hms
    case inr =>
      obtain ⟨rfl, rfl⟩ : ⟨0, clnt, true⟩ = m ∧ ms = ms' := by simpa [first, hn, hend] using hms
      refine ⟨⟨by simp [hn], fun clnt' hc => by simpa [hn] using hc, by simp [hx]⟩, { hm with }, ms,
        rs, ?_, hv, { hc with }⟩
      simpa [first, hn] using hw

theorem tag (h : s.Sound c) {data : Bytes} (hb : s.calls.length + 1 < 2 ^ 32) (hn : s.clnt ≠ none) :
    Sound c { s with nextTag := s.nextTag + 1, calls := s.calls ++ [(s.nextTag, data)] } := by
  obtain ⟨hf, hm, ms, rs, hw, hv, hc⟩ := h
  have mono k (x : Ttag × Bytes) (hx : s.calls[k]? = some x) :=
    getElem?_append_of_some (m := [(s.nextTag, data)]) hx
  refine ⟨{ hf with clnt := fun hx => absurd hx hn }, ?_, ms, rs, hw, hv,
    hc.mono mono (fun _ ht hr => ⟨ht, hr⟩) rfl rfl rfl fun ho => ⟨ho, fun _ => id⟩⟩
  exact { hm with
    tags := fun k x hx => by
      rcases getElem?_concat hx with hx | ⟨rfl, rfl⟩
      · exact hm.tags k x hx
      · exact hm.nextTag hn
    nextTag  := fun _ => by simp [hm.nextTag hn, tagOf_succ]
    bound    := by simpa using hb
    unused   := fun k hk => hm.unused k (by simp at hk; omega)
    callmap  := fun t k ht =>
      ⟨(hm.callmap t k ht).left.imp fun _ => mono k _, (hm.callmap t k ht).right⟩
    channel  := fun k r hk => by
      obtain ⟨h₁, h₂, h₃, h₄⟩ := hm.channel k r hk
      exact ⟨h₁, h₂, h₃, fun x hx => (h₄ x hx).mono mono (fun _ _ => id) fun _ _ => id⟩
    returned := fun k x hx => (hm.returned k x hx).mono mono (fun _ _ => id) fun _ _ => id }

end Sound

theorem set_phase_of_ne {phase : Phase} {i : Nat} (h : i ≠ k) :
    (s.set k phase).phase i = s.phase i := by
  simp [set, h]

-- No request that has been written is forgotten.
theorem Carries.set {phase : Phase} (h : s.Carries ms rs)
    (hp : (s.phase k = .tagged ∨ s.phase k = .registered) ∨ phase ≠ .tagged ∧ phase ≠ .registered) :
    (s.set k phase).Carries ms rs := by
  refine h.mono (fun _ _ => id) (fun i hi hj => ?_) rfl rfl rfl fun ho => ⟨ho, fun _ => id⟩
  by_cases he : i = k
  case neg => simpa only [set_phase_of_ne he] using ⟨hi, hj⟩
  case pos =>
    subst he
    have hp := hp.resolve_left fun hx => hx.elim hi hj
    simpa [Demux.set] using hp

-- The phase of one call changes.
theorem Matched.set {phase : Phase} (h : s.Matched) (hk : k < s.calls.length)
    (hm : (∃ tag, (tag, k) ∈ s.callmap) → phase.Pending)
    (hp : phase.Pending → (∃ tag, (tag, k) ∈ s.callmap) ∨ ∃ r, s.channel = some (k, r))
    (hc : ∀ r, s.channel = some (k, r) → phase = .waiting)
    (hr : ∀ x, phase = .returned (some x) → s.Replied k x) : (s.set k phase).Matched := by
  have self : (s.set k phase).phase k = phase := by simp [Demux.set]
  have other {i : Nat} (hi : i ≠ k) : (s.set k phase).phase i = s.phase i := set_phase_of_ne hi
  exact { h with
    unused := fun i hi => by
      rw [other (by rintro rfl; exact absurd hk (not_lt.mpr hi))]
      exact h.unused i hi
    callmap := fun tag i hi => by
      refine ⟨(h.callmap tag i hi).left, ?_⟩
      by_cases he : i = k
      case pos => rw [he, self]; exact hm ⟨tag, he ▸ hi⟩
      case neg => rw [other he]; exact (h.callmap tag i hi).right
    pending := fun i hi => by
      by_cases he : i = k
      case pos => subst he; exact hp (self ▸ hi)
      case neg => exact h.pending i (other he ▸ hi)
    channel := fun i r hi => by
      obtain ⟨h₁, h₂, h₃, h₄⟩ := h.channel i r hi
      by_cases he : i = k
      case pos =>
        subst he
        rw [self]
        exact ⟨.inr (hc r hi), h₂, fun _ => hc r hi, h₄⟩
      case neg => rw [other he]; exact ⟨h₁, h₂, h₃, h₄⟩
    returned := fun i x hi => by
      by_cases he : i = k
      case pos => subst he; exact hr x (self ▸ hi)
      case neg => exact h.returned i x (other he ▸ hi) }

-- A call enters the map.
theorem Matched.put (h : s.Matched) {tag : Ttag} {data : Bytes}
    (hk : s.calls[k]? = some (tag, data)) (hp : s.phase k = .tagged) (hc : s.closed = false) :
    Matched { s.set k .registered with callmap := (tag, k) :: s.remove tag } := by
  have other {i : Nat} (hi : i ≠ k) : (s.set k .registered).phase i = s.phase i :=
    set_phase_of_ne hi
  have ne {i : Nat} (hi : (s.phase i).Pending) : i ≠ k := by
    rintro rfl
    simp [hp, Phase.Pending] at hi
  -- There is no other call with this tag.
  have stays {t : Ttag} {i : Nat} (hi : (t, i) ∈ s.callmap) : (t, i) ∈ s.remove tag := by
    obtain ⟨⟨d, hd⟩, hx⟩ := h.callmap t i hi
    refine List.mem_filter.mpr ⟨hi, ?_⟩
    rw [bne_iff_ne]
    rintro rfl
    exact ne hx (h.calls_inj hd hk rfl)
  refine { h with
    unused := fun i hi => ?_
    keys := ?_
    callmap := fun t i hi => ?_
    pending := fun i hi => ?_
    channel := fun i r hi => ?_
    returned := fun i x hi => ?_
    outstanding := fun ts hs => absurd (h.outstanding ts hs).left (by simp [hc]) }
  · have hl := (List.getElem?_eq_some_iff.mp hk).fst
    have hi : s.calls.length ≤ i := hi
    exact (other (by omega)).trans (h.unused i hi)
  · refine List.nodup_cons.mpr ⟨?_, ?_⟩
    · simp [remove]
    · exact (List.filter_sublist.map _).nodup h.keys
  · rcases List.mem_cons.mp hi with hi | hi
    · cases hi
      exact ⟨⟨data, hk⟩, .inl (by simp [Demux.set])⟩
    · have hx := h.callmap t i (List.mem_of_mem_filter hi)
      exact ⟨hx.left, by simpa only [other (ne hx.right)] using hx.right⟩
  · by_cases he : i = k
    case pos => exact .inl ⟨tag, he ▸ List.mem_cons_self⟩
    case neg =>
      rcases h.pending i (by simpa only [other he] using hi) with ⟨t, ht⟩ | hx
      · exact .inl ⟨t, List.mem_cons_of_mem _ (stays ht)⟩
      · exact .inr hx
  · obtain ⟨h₁, h₂, h₃, h₄⟩ := h.channel i r hi
    refine ⟨by simpa only [other (ne h₁)] using h₁, fun t ht => ?_, ?_, h₄⟩
    · rcases List.mem_cons.mp ht with ht | ht
      · cases ht
        exact ne h₁ rfl
      · exact h₂ t (List.mem_of_mem_filter ht)
    · exact fun ho => (other (ne h₁)).trans (h₃ ho)
  · by_cases he : i = k
    case pos => simp [he, Demux.set] at hi
    case neg => exact h.returned i x (by simpa only [other he] using hi)

-- The reader has sent a reply on the channel of the call.
theorem Matched.receive (h : s.Matched) {r : Option (Bytes × Bool)} (hc : s.channel = some (k, r)) :
    Matched { s.set k (.returned r) with channel := none } := by
  obtain ⟨h₁, h₂, _, h₄⟩ := h.channel k r hc
  have other {i : Nat} (hi : i ≠ k) : (s.set k (.returned r)).phase i = s.phase i :=
    set_phase_of_ne hi
  refine { h with
    unused := fun i hi => ?_
    callmap := fun t i hi => ?_
    pending := fun i hi => ?_
    channel := by simp
    returned := fun i x hi => ?_ }
  · have hi : s.calls.length ≤ i := hi
    refine (other ?_).trans (h.unused i hi)
    rintro rfl
    simp [h.unused i hi, Phase.Pending] at h₁
  · have hx := h.callmap t i hi
    have he : i ≠ k := by
      rintro rfl
      exact h₂ t hi
    exact ⟨hx.left, by simpa only [other he] using hx.right⟩
  · by_cases he : i = k
    case pos => simp [he, Demux.set, Phase.Pending] at hi
    case neg =>
      rcases h.pending i (by simpa only [other he] using hi) with hx | ⟨r', hx⟩
      · exact .inl hx
      · simp [hc, Ne.symm he] at hx
  · by_cases he : i = k
    case pos =>
      subst he
      exact h₄ x (by simpa [Demux.set] using hi)
    case neg => exact h.returned i x (by simpa only [other he] using hi)

theorem mem_keys_remove {t tag : Ttag} (h : t ∈ s.keys) (ht : t ≠ tag) :
    t ∈ (s.remove tag).map Prod.fst := by
  obtain ⟨x, hx, rfl⟩ := List.mem_map.mp h
  exact List.mem_map.mpr ⟨x, List.mem_filter.mpr ⟨hx, by simpa using ht⟩, rfl⟩

-- The reader takes a call from the map.
theorem Matched.reply (h : s.Matched) {tag : Ttag} (hk : (tag, k) ∈ s.callmap)
    (hc : s.channel = none) {r : Option (Bytes × Bool)} {o : Option (List Ttag)}
    (hw : o = none → s.phase k = .waiting) (hr : ∀ x, r = some x → s.Replied k x)
    (ho : ∀ ts, o = some ts → s.closed = true ∧ ts.Perm ((s.remove tag).map Prod.fst)) :
    Matched { s with callmap := s.remove tag, channel := some (k, r), outstanding := o } := by
  obtain ⟨⟨d, hd⟩, hp⟩ := h.callmap tag k hk
  have inj {t : Ttag} {i : Nat} (hi : (t, i) ∈ s.callmap) : t = tag ↔ i = k := by
    obtain ⟨⟨d', hd'⟩, _⟩ := h.callmap t i hi
    constructor
    · rintro rfl
      exact h.calls_inj hd' hd rfl
    · rintro rfl
      rw [hd] at hd'
      cases hd'
      rfl
  refine { h with
    keys := (List.filter_sublist.map _).nodup h.keys
    callmap := fun t i hi => h.callmap t i (List.mem_of_mem_filter hi)
    pending := fun i hi => ?_
    channel := ?_
    outstanding := ho }
  · by_cases he : i = k
    case pos => exact .inr ⟨r, by rw [he]⟩
    case neg =>
      rcases h.pending i hi with ⟨t, ht⟩ | ⟨_, hx⟩
      · exact .inl ⟨t, List.mem_filter.mpr ⟨ht, by simpa using mt (inj ht).mp he⟩⟩
      · simp [hc] at hx
  · rintro _ _ ⟨⟩
    refine ⟨hp, fun t ht => ?_, hw, hr⟩
    obtain ⟨ht, hn⟩ := List.mem_filter.mp ht
    simp [(inj ht).mpr rfl] at hn

-- The server goes on with its handlers.
theorem Matched.handled {handlers : List (Ttag × Bytes)} {result : Nat → Option (Bytes × Bool)}
    (h : s.Matched) (hh : ∀ (j : Nat) x, s.handlers[j]? = some x → handlers[j]? = some x)
    (hr : ∀ j x, s.result j = some x → result j = some x) :
    Matched { s with handlers, result } := by
  refine { h with channel := fun k r hk => ?_, returned := fun k x hx => ?_ }
  · obtain ⟨h₁, h₂, h₃, h₄⟩ := h.channel k r hk
    exact ⟨h₁, h₂, h₃, fun x hx => (h₄ x hx).mono (fun _ _ => id) hh hr⟩
  · exact (h.returned k x hx).mono (fun _ _ => id) hh hr

namespace Sound

theorem put (h : s.Sound c) (hs : s.next c (.put k) = some s') : Sound c s' := by
  obtain ⟨hf, hm, ms, rs, hw, hv, hc⟩ := h
  simp only [next] at hs
  split at hs <;> try cases hs
  case h_1 t d hk hp =>
    split_ifs at hs with hx <;> cases hs
    · refine ⟨{ hf with },
        hm.set (List.getElem?_eq_some_iff.mp hk).fst ?_ (by simp [Phase.Pending]) ?_ (by simp),
        ms, rs, hw, hv, hc.set (.inl (.inl hp))⟩
      · rintro ⟨t, ht⟩
        simpa [hp, Phase.Pending] using (hm.callmap t k ht).right
      · intro r hr
        simpa [hp, Phase.Pending] using (hm.channel k r hr).left
    · refine ⟨{ hf with }, hm.put hk hp (by simpa using hx), ms, rs, hw, hv,
        (hc.set (.inl (.inl hp))).mono (fun _ _ => id)
        (fun _ hi hj => ⟨hi, hj⟩) rfl rfl rfl fun ho => ⟨ho, fun t' ht => ?_⟩⟩
      by_cases he : t' = t
      case pos => exact he ▸ List.mem_cons_self
      case neg => exact List.mem_cons_of_mem _ (mem_keys_remove ht he)

theorem write (h : s.Sound c) (ha : s.exceeds c (.write k) = false)
    (hs : s.next c (.write k) = some s') :
    Sound c s' := by
  obtain ⟨hf, hm, ms, rs, hw, hv, hc⟩ := h
  simp only [next] at hs
  split at hs <;> cases hs
  case h_1 t d hk hp =>
    have hm' : (s.set k .waiting).Matched := by
      have hl := (List.getElem?_eq_some_iff.mp hk).fst
      exact hm.set hl (fun _ => .inr rfl) (fun _ => hm.pending k (.inl hp)) (fun _ _ => rfl)
        (by simp)
    have hc' : (s.set k .waiting).Carries ms rs := hc.set (.inl (.inr hp))
    cases ho : s.isOpen
    case false =>
      exact ⟨{ hf with }, { hm' with }, ms, rs, by simpa [Demux.set, ho, first] using hw,
        by simpa [Demux.set, ho] using hv, { hc' with }⟩
    case true =>
      have hl : (c.marshall ⟨t, d, true⟩).length < 2 ^ 32 := by simpa [exceeds, hk] using ha
      have fresh {y : Ttag × Bytes} (hy : s.Asked y) : y.fst ≠ t := by
        obtain ⟨i, hi, _, hr⟩ := hy
        exact fun he => hr (hm.calls_inj hi hk he ▸ hp)
      have hmap (hn : s.outstanding = none) : t ∈ s.keys := by
        rcases hm.pending k (.inl hp) with ⟨t', ht⟩ | ⟨r, hr⟩
        · obtain ⟨⟨d', hd⟩, _⟩ := hm.callmap t' k ht
          rw [hk] at hd
          cases hd
          exact List.mem_map.mpr ⟨_, ht, rfl⟩
        · have hx := (hm.channel k r hr).right.right.left hn
          simp [hp] at hx
      have hn : t ∉ ms.map Msg.tag ++ s.handlers.map Prod.fst := by
        intro hx
        rcases List.mem_append.mp hx with hx | hx
        · obtain ⟨m, hy, he⟩ := List.mem_map.mp hx
          exact fresh (hc.requests m hy) he
        · obtain ⟨y, hy, he⟩ := List.mem_map.mp hx
          exact fresh (hc.handlers y hy) he
      have ha : (s.set k .waiting).Asked (t, d) := ⟨k, hk, by simp [Demux.set]⟩
      refine ⟨{ hf with }, { hm' with }, ms ++ [⟨t, d, true⟩], rs, ?_,
        by simpa [Demux.set, ho] using hv, { hc'.ask (m := ⟨t, d, true⟩) ha hn hmap with }⟩
      simpa [Demux.set, ho, first] using hw.write hl ho

theorem receive (h : s.Sound c) (hs : s.next c .receive = some s') : Sound c s' := by
  obtain ⟨hf, hm, ms, rs, hw, hv, hc⟩ := h
  simp only [next] at hs
  split at hs
  case h_2 => cases hs
  case h_1 k r hk =>
    split_ifs at hs
    cases hs
    exact ⟨{ hf with }, hm.receive hk, ms, rs, hw, hv, { hc.set (.inr ⟨by simp, by simp⟩) with }⟩

theorem readReply (h : s.Sound c) (hs : s.next c .readReply = some s') : Sound c s' := by
  obtain ⟨hf, hm, ms, rs, hw, hv, hc⟩ := h
  simp only [next, Option.ite_none_right_eq_some, Option.map_eq_some_iff, Prod.exists] at hs
  obtain ⟨⟨_, ho, hn⟩, r, bytes, hr, rfl⟩ := hs
  obtain ⟨m, rs, rfl, rfl, hv⟩ := hv.read hr
  -- The reply belongs to a call in the map.
  obtain ⟨k, hl, hk⟩ := lookup_of_mem_keys (hc.repliesLive ho m List.mem_cons_self)
  obtain ⟨⟨d, hd⟩, hp⟩ := hm.callmap m.tag k hk
  obtain ⟨j, x, hj, hx, hres, hwr⟩ := hc.replies m List.mem_cons_self
  obtain ⟨i, hi, _, hreg⟩ := hc.handlers x (List.mem_of_getElem? hj)
  obtain rfl : i = k := hm.calls_inj hi hd hx
  have hm' := hm.reply (r := some (m.data, m.ok)) (o := s.outstanding) hk hn
    (fun _ => hp.resolve_left hreg)
    (fun y hy => ⟨j, ⟨x, hj, hi⟩, hres.trans hy⟩) (fun ts hts => by simp [ho] at hts)
  have hd := (List.nodup_append.mp hc.nodup).right.right
  have hr := List.nodup_cons.mp hc.replied
  simp only [Demux.reply, hl]
  refine ⟨{ hf with }, { hm' with }, ms, rs, hw, hv, { hc with
    replies := fun r hr => hc.replies r (List.mem_cons_of_mem m hr)
    replied := hr.right
    requestsLive := fun _ m' hm' => mem_keys_remove (hc.requestsLive ho m' hm') ?_
    handlersLive := fun _ j' y hy hw' => mem_keys_remove (hc.handlersLive ho j' y hy hw') ?_
    repliesLive := fun _ r hr' =>
      mem_keys_remove (hc.repliesLive ho r (List.mem_cons_of_mem m hr')) ?_ }⟩
  · exact hx ▸ hd _ (List.mem_map_of_mem hm') _ (List.mem_map_of_mem (List.mem_of_getElem? hj))
  · intro he
    rw [hc.handlers_inj hy hj (he.trans hx.symm), hwr] at hw'
    cases hw'
  · intro he
    exact hr.left (he ▸ List.mem_map_of_mem hr')

theorem readError (h : s.Sound c) {ts : List Ttag} (hs : s.next c (.readError ts) = some s') :
    Sound c s' := by
  obtain ⟨hf, hm, ms, rs, hw, hv, hc⟩ := h
  simp only [next, Option.ite_none_right_eq_some, Option.some.injEq] at hs
  obtain ⟨⟨_, _, _, hn, _, hp⟩, rfl⟩ := hs
  refine ⟨{ hf with }, { hm with
    channel := fun k r hk => by simp [hn] at hk
    outstanding := fun ts' ht => ⟨rfl, Option.some.inj ht ▸ hp⟩ }, ms, rs, hw, hv, ?_⟩
  exact hc.mono (fun _ _ => id) (fun _ hi hj => ⟨hi, hj⟩) rfl rfl rfl (by simp)

theorem fail (h : s.Sound c) (hs : s.next c .fail = some s') : Sound c s' := by
  obtain ⟨hf, hm, ms, rs, hw, hv, hc⟩ := h
  simp only [next] at hs
  split at hs <;> cases hs
  case h_1 t ts ho hn =>
    obtain ⟨hcl, hp⟩ := hm.outstanding _ ho
    obtain ⟨k, hl, hk⟩ := lookup_of_mem_keys (hp.subset List.mem_cons_self)
    have hp : ts.Perm ((s.remove t).map Prod.fst) := by
      have hp := (List.cons_perm_iff_perm_erase.mp hp).right
      rw [hm.keys.erase_eq_filter, keys, List.filter_map] at hp
      exact hp
    have hm' := hm.reply (r := none) (o := some ts) hk hn (by simp) (by simp)
      fun ts' ht => ⟨hcl, Option.some.inj ht ▸ hp⟩
    simp only [Demux.reply, hl]
    exact ⟨{ hf with }, { hm' with }, ms, rs, hw, hv,
      hc.mono (fun _ _ => id) (fun _ hi hj => ⟨hi, hj⟩) rfl rfl rfl (by simp)⟩

theorem readRequest (h : s.Sound c) (hs : s.next c .readRequest = some s') : Sound c s' := by
  obtain ⟨hf, hm, ms, rs, hw, hv, hc⟩ := h
  simp only [next, Option.ite_none_left_eq_some, Option.map_eq_some_iff, Prod.exists] at hs
  obtain ⟨hend, r, bytes, hr, rfl⟩ := hs
  have hfirst : s.first = [] := by
    obtain ⟨clnt, hend⟩ := Option.ne_none_iff_exists'.mp hend
    simp [first, hend]
  rw [hfirst] at hw
  obtain ⟨m, ms, rfl, rfl, hw⟩ := hw.read hr
  replace hw : Wire c s.isOpen bytes (s.first ++ ms) := by rwa [hfirst]
  have mono j (x : Ttag × Bytes) (hx : s.handlers[j]? = some x) :=
    getElem?_append_of_some (m := [(m.tag, m.data)]) hx
  have hm := hm.handled mono fun _ _ => id
  refine ⟨{ hf with }, { hm with }, ms, rs, hw, hv, { hc with
    requests := fun m' hm' => hc.requests m' (List.mem_cons_of_mem m hm')
    handlers := fun x hx => ?_
    replies := fun r hr => ?_
    nodup := ?_
    requestsLive := fun ho m' hm' => hc.requestsLive ho m' (List.mem_cons_of_mem m hm')
    handlersLive := fun ho j x hj hf => ?_ }⟩
  · rcases List.mem_append.mp hx with hx | hx
    · exact hc.handlers x hx
    · cases List.mem_singleton.mp hx
      exact hc.requests m List.mem_cons_self
  · obtain ⟨j, x, hj, hx⟩ := hc.replies r hr
    exact ⟨j, x, mono j x hj, hx⟩
  · have hn := hc.nodup
    simp only [List.map_append, List.map_cons, List.map_nil, ←List.append_assoc,
      List.cons_append] at hn ⊢
    exact (List.perm_append_singleton _ _).nodup_iff.mpr hn
  · rcases getElem?_concat hj with hj | ⟨_, rfl⟩
    · exact hc.handlersLive ho j x hj hf
    · exact hc.requestsLive ho m List.mem_cons_self

theorem serve (h : s.Sound c) {reply : Bytes × Bool} (hs : s.next c (.serve j reply) = some s') :
    Sound c s' := by
  obtain ⟨hf, hm, ms, rs, hw, hv, hc⟩ := h
  simp only [next, Option.ite_none_right_eq_some, Option.some.injEq] at hs
  obtain ⟨⟨_, hj⟩, rfl⟩ := hs
  have mono i (x : Bytes × Bool) (hx : s.result i = some x) :
      Function.update s.result j (some reply) i = some x := by
    have he : i ≠ j := by
      rintro rfl
      simp [hj] at hx
    simpa [he] using hx
  have hm := hm.handled (fun _ _ => id) mono
  refine ⟨{ hf with }, { hm with }, ms, rs, hw, hv, { hc with replies := fun r hr => ?_ }⟩
  obtain ⟨i, x, hi, hx, hr, hw⟩ := hc.replies r hr
  exact ⟨i, x, hi, hx, mono i _ hr, hw⟩

theorem writeReply (h : s.Sound c) (ha : s.exceeds c (.writeReply j) = false)
    (hs : s.next c (.writeReply j) = some s') : Sound c s' := by
  obtain ⟨hf, hm, ms, rs, hw, hv, hc⟩ := h
  simp only [next] at hs
  split at hs <;> cases hs
  case h_1 t d rep ok hj hr hn =>
    have mono i (hi : s.written i = true) : Function.update s.written j true i = true := by
      by_cases he : i = j
      case pos => simp [he]
      case neg => simpa [he] using hi
    have hc' : Carries { s with written := Function.update s.written j true } ms rs := { hc with
      replies := fun r hr => by
        obtain ⟨i, x, hi, hx, hr, hw⟩ := hc.replies r hr
        exact ⟨i, x, hi, hx, hr, mono i hw⟩
      handlersLive := fun ho i x hi hx => by
        refine hc.handlersLive ho i x hi ?_
        by_contra hb
        simp [mono i (by simpa using hb)] at hx }
    by_cases ho : s.isOpen = true
    case neg => exact ⟨{ hf with }, { hm with }, ms, rs, hw, by simpa [ho] using hv, { hc' with }⟩
    case pos =>
      have hl : (c.marshall ⟨t, rep, ok⟩).length < 2 ^ 32 := by simpa [exceeds, hj, hr] using ha
      have fresh : t ∉ rs.map Msg.tag := by
        intro hx
        obtain ⟨r, hx, he⟩ := List.mem_map.mp hx
        obtain ⟨i, y, hi, hy, _, hw⟩ := hc.replies r hx
        rw [hc.handlers_inj hi hj (hy.trans he), hn] at hw
        cases hw
      have hc' := hc'.answer (r := ⟨t, rep, ok⟩) hj rfl hr (by simp) fresh
        fun hx => hc.handlersLive hx j (t, d) hj hn
      exact ⟨{ hf with }, { hm with }, ms, rs ++ [⟨t, rep, ok⟩], hw,
        by simpa [ho] using hv.write hl ho, { hc' with }⟩

theorem next {a : Event} (h : s.Sound c) (ha : s.exceeds c a = false)
    (hs : (demux c).next s a = some s') :
    Sound c s' := by
  simp only [demux, Option.ite_none_left_eq_some, Bool.not_eq_true] at hs
  obtain ⟨hx, hs⟩ := hs
  cases a
  case newDemuxClnt => exact h.newDemuxClnt ha hs
  case newDemuxSrv  => exact h.newDemuxSrv hx hs
  case tag data     =>
    simp only [Demux.next, Option.ite_none_left_eq_some, Option.some.injEq] at hs
    obtain ⟨hn, rfl⟩ := hs
    exact h.tag (by simp [exceeds] at ha; omega) hn
  case put          => exact h.put hs
  case write        => exact h.write ha hs
  case receive      => exact h.receive hs
  case readReply    => exact h.readReply hs
  case readError    => exact h.readError hs
  case fail         => exact h.fail hs
  case readRequest  => exact h.readRequest hs
  case serve        => exact h.serve hs
  case writeReply   => exact h.writeReply ha hs
  case cut m n =>
    cases hs
    obtain ⟨hf, hm, ms, rs, hw, hv, hc⟩ := h
    exact ⟨{ hf with fatal := fun hx => ⟨(hf.fatal hx).left, rfl⟩ }, { hm with }, ms, rs, hw.cut m,
      hv.cut n, { hc with }⟩
  case close =>
    obtain ⟨hf, hm, ms, rs, hw, hv, hc⟩ := h
    simp only [Demux.next, Option.ite_none_left_eq_some, Option.some.injEq] at hs
    obtain ⟨_, rfl⟩ := hs
    exact ⟨{ hf with }, { hm with outstanding := fun ts ht => ⟨rfl, (hm.outstanding ts ht).right⟩ },
      ms, rs, hw, hv, { hc with }⟩

theorem init : Sound c (demux c).init where
  connected := by constructor <;> simp [demux]
  matched   := by constructor <;> simp [demux, keys, tagOf, Phase.Pending]
  carries   := ⟨[], [], .nil, .nil, by constructor <;> simp [demux]⟩

end Sound

-- A process ends only if the connection breaks before the server has read the first message. As
-- long as tags are not used twice, the reply of a call is the result for its own request, each
-- request is handled at most once, and no call is left waiting when the reader has ended.
theorem calls_matched (c : Codec) (b : (demux c).Behavior)
    (hb : b.Avoids fun s a => s.exceeds c a = true) (i : Nat) :
    ((b.state i).fatal = true → (b.state i).clntEnd = none ∧ (b.state i).isOpen = false) ∧
    (∀ clnt, (b.state i).clntEnd = some clnt → (b.state i).clnt = some clnt) ∧
    (∀ j < (b.state i).handlers.length, ∃ k, (b.state i).Handles j k) ∧
    (∀ j j' k, (b.state i).Handles j k → (b.state i).Handles j' k → j = j') ∧
    (∀ k reply, (b.state i).phase k = .returned (some reply) →
      ∃ j, (b.state i).Handles j k ∧ (b.state i).result j = some reply) ∧
    ((b.state i).outstanding = some [] → (b.state i).channel = none →
      ∀ k, (b.state i).phase k = .tagged ∨ ∃ reply, (b.state i).phase k = .returned reply) := by
  obtain ⟨hf, hm, ms, rs, _, _, hc⟩ :=
    b.invariant (I := Sound c) .init
      (fun i a _ ha hs h => h.next (Bool.eq_false_iff.mpr (hb i a ha)) hs) i
  refine ⟨hf.fatal, hf.clntEnd, fun j hj => ?_, fun j j' k hj hj' => ?_, hm.returned,
    fun ho hn k => ?_⟩
  · obtain ⟨k, hk, _⟩ := hc.handlers _ (List.getElem_mem hj)
    exact ⟨k, _, List.getElem?_eq_getElem hj, hk⟩
  · obtain ⟨x, hj, hk⟩ := hj
    obtain ⟨y, hj', hk'⟩ := hj'
    exact hc.handlers_inj hj hj' (by rw [Option.some.inj (hk.symm.trans hk')])
  · have hk := List.map_eq_nil_iff.mp (hm.outstanding _ ho).right.symm.eq_nil
    cases hp : (b.state i).phase k
    case tagged     => exact .inl rfl
    case returned r => exact .inr ⟨r, rfl⟩
    all_goals
      have hx := hm.pending k (by simp [hp, Phase.Pending])
      simp [hk, hn] at hx

-- An encoding without compression.
def plain : Codec where
  marshall m       := writeLen m.tag.toNat ++ (if m.ok then 1 else 0) :: m.data
  unmarshall bytes :=
    match readLen bytes with
    | some (tag, ok :: data) => some ⟨.ofNat tag, data, ok = 1⟩
    | _                      => none
  unmarshall_marshall m := by
    obtain ⟨tag, data, ok⟩ := m
    cases ok <;> simp [readLen_writeLen tag.toNat_lt]

-- Two requests are answered in the other order, and the connection is closed while a third one is
-- written.
def reordered : (demux plain).Behavior :=
  .ofActions _ [.newDemuxClnt [7], .newDemuxSrv, .tag [1], .tag [2], .tag [3], .put 0, .put 1,
    .write 0, .write 1, .readRequest, .readRequest, .serve 1 ([20], true), .serve 0 ([10], true),
    .writeReply 1, .writeReply 0, .readReply, .receive, .readReply, .receive, .put 2, .write 2,
    .cut 3 0, .readError [3], .fail, .receive] (by decide +kernel)

theorem calls_matched_reordered :
    (∃ j, (reordered.state 25).Handles j 0 ∧ (reordered.state 25).result j = some ([10], true)) ∧
    (∃ j, (reordered.state 25).Handles j 1 ∧ (reordered.state 25).result j = some ([20], true)) ∧
    (∀ k, (reordered.state 25).phase k = .tagged ∨
      ∃ reply, (reordered.state 25).phase k = .returned reply) ∧
    (reordered.state 25).fatal = false ∧ (reordered.state 25).isOpen = false := by
  have hb : reordered.Avoids fun s a => s.exceeds plain a = true :=
    System.Behavior.avoids_ofActions (by decide +kernel)
  obtain ⟨_, _, _, _, hr, hd⟩ := calls_matched plain reordered hb 25
  exact ⟨hr 0 _ (by decide +kernel), hr 1 _ (by decide +kernel),
    hd (by decide +kernel) (by decide +kernel), by decide +kernel, by decide +kernel⟩

-- The connection breaks in the middle of the first message.
example : ∃ b : (demux plain).Behavior, (b.state 3).fatal = true :=
  ⟨.ofActions _ [.newDemuxClnt [7], .cut 3 0, .newDemuxSrv] (by decide +kernel), by decide +kernel⟩

end Demux
