import Mathlib.Algebra.Group.Nat.Defs
import Mathlib.Data.List.Induction
import Mathlib.Data.List.Nodup
import RainWebServer.Net.EPollPollerRuns

/-!
# EPollPoller: Polling

Embeds `poll` and `fillActiveChannels` of `src/net/EPollPoller.cc`, as `EventLoop::loop` calls
them, between any operations on the channels of one poller.

The kernel writes at most as many events as `events_` has slots, and each points to a channel.
`poll` stores them in the channels, lists these in `activeChannels_`, and doubles `events_` when no
slot was left over: some ready channels may then have been left out.

## Main results

- `poll_reports` : what one `poll` reports, after any run
- `short_polls_bounded` : how often, in a whole run, a `poll` leaves ready channels out
-/

namespace RainWebServer.Net

open RainWebServer.Lib

variable {Ch : Type}

/-! ## §1 `epoll_wait` -/

/-- `epoll_event`: the events of an fd, and `data.ptr`. -/
structure EpollEvent (Ch : Type) where
  events : EventMask
  ptr : Option Ch
  deriving DecidableEq, Repr

/-- `kInitEventListSize`. -/
def kInitEventListSize : Nat := 16

/-- The greatest `maxevents` that the kernel takes: `INT_MAX / sizeof(struct epoll_event)`. -/
def EP_MAX_EVENTS : Nat := 2147483647 / 12

def EINTR : Nat := 4

def EINVAL : Nat := 22

/-- What `epoll_wait` comes back with: the events it wrote, or an errno. -/
inductive EpollWait (Ch : Type) where
  | events (reported : List (EpollEvent Ch))
  | error (errno : Nat)
  deriving DecidableEq, Repr

/-- `epoll_wait`: the kernel reports the fds of `ready`, in its order, as far as there is room. -/
def epoll_wait (p : EPollPoller Ch) (ready : List (Int × EventMask)) (maxevents : Int) :
    EpollWait Ch :=
  if maxevents ≤ 0 ∨ EP_MAX_EVENTS < maxevents then .error EINVAL
  else .events ((ready.take maxevents.toNat).map fun e => ⟨e.2, (p.interest e.1).map Prod.snd⟩)

/-- `std::vector<epoll_event>::resize`. -/
def resizeEvents (events_ : List (EpollEvent Ch)) (size : Nat) : List (EpollEvent Ch) :=
  events_.take size ++ List.replicate (size - events_.length) ⟨0, none⟩

/-! ## §2 `poll` -/

/-- A poller with its channels and `events_`, the `activeChannels_` of its loop, and two records:
    for every `epoll_wait` that reported, how many fds were ready and how many were reported, and
    the errors that were logged. -/
structure EventPoller (Ch : Type) where
  polled : PolledChannels Ch
  events_ : List (EpollEvent Ch)
  activeChannels_ : List Ch
  reports : List (Nat × Nat)
  errors : List Nat

namespace EventPoller

/-- The constructor, with fresh channels. -/
def new (fds : ChannelFds Ch) : EventPoller Ch :=
  ⟨.new fds, List.replicate kInitEventListSize ⟨0, none⟩, [], [], []⟩

variable [DecidableEq Ch]

/-- `set_revents`. -/
def set_revents (s : EventPoller Ch) (c : Ch) (revents : EventMask) : EventPoller Ch :=
  { s with polled := { s.polled with
      channel := Function.update s.polled.channel c
        { s.polled.channel c with revents_ := revents } } }

/-- One iteration of the loop of `fillActiveChannels`; a null pointer and an index past the end are
    faults. -/
def fillActiveChannel (s : EventPoller Ch) (i : Nat) : Option (EventPoller Ch) :=
  match s.events_[i]? with
  | some ⟨revents, some channel⟩ =>
    let s := s.set_revents channel revents
    some { s with activeChannels_ := s.activeChannels_ ++ [channel] }
  | _ => none

/-- `fillActiveChannels`. -/
def fillActiveChannels (s : EventPoller Ch) (numEvents : Nat) : Option (EventPoller Ch) :=
  (List.range numEvents).foldlM fillActiveChannel s

/-- `poll`, when `epoll_wait` comes back. -/
def poll (s : EventPoller Ch) : EpollWait Ch → Option (EventPoller Ch)
  | .events reported => do
    let numEvents := reported.length
    let s := { s with events_ := reported ++ s.events_.drop numEvents }
    if 0 < numEvents then
      let s ← s.fillActiveChannels numEvents
      if numEvents = s.events_.length then
        some { s with events_ := resizeEvents s.events_ (s.events_.length * 2) }
      else some s
    else some s
  | .error errno =>
    if errno ≠ EINTR then some { s with errors := s.errors ++ [errno] } else some s

/-- The size of `events_`, cast to an `int`. -/
def maxevents (s : EventPoller Ch) : Int := (BitVec.ofNat 32 s.events_.length).toInt

/-- `activeChannels_.clear()`, and the call of `poll` that finds `ready`. -/
def pollReady (s : EventPoller Ch) (ready : List (Int × EventMask)) : Option (EventPoller Ch) :=
  match epoll_wait s.polled.poller ready s.maxevents with
  | .events reported =>
    { s with
      activeChannels_ := []
      reports := s.reports ++ [(ready.length, reported.length)] }.poll (.events reported)
  | .error errno => { s with activeChannels_ := [] }.poll (.error errno)

/-- What happens to the poller. -/
inductive Act (Ch : Type) where
  /-- An operation on a channel. -/
  | channel (c : Ch) (op : ChannelOp)
  /-- `poll`, when these fds are ready. -/
  | poll (ready : List (Int × EventMask))
  /-- `poll`, when a signal interrupts `epoll_wait`. -/
  | interrupted
  deriving DecidableEq, Repr

/-- The kernel reports fds of the interest list, each once, with events that were asked for or
    `EPOLLERR` and `EPOLLHUP`. -/
def reportable (p : EPollPoller Ch) (ready : List (Int × EventMask)) : Bool :=
  (ready.map Prod.fst).Nodup && ready.all fun e =>
    match p.interest e.1 with
    | some (mask, _) => e.2 ≠ 0 && e.2 &&& (mask ||| EPOLLERR ||| EPOLLHUP) = e.2
    | none => false

/-- The poller of a loop as a machine. -/
def machine : Machine (EventPoller Ch) (Act Ch) where
  enabled s
    | .poll ready => reportable s.polled.poller ready
    | _ => true
  step s
    | .channel c op => (s.polled.step (c, op)).map fun polled => { s with polled := polled }
    | .poll ready => s.pollReady ready
    | .interrupted => { s with activeChannels_ := [] }.poll (.error EINTR)

/-! ## §3 What `fillActiveChannels` stores -/

/-- The channels, with their new `revents_`. -/
def store (channel : Ch → Channel) (pairs : List (Ch × EventMask)) : Ch → Channel :=
  pairs.foldl (fun channel e => Function.update channel e.1
    { channel e.1 with revents_ := e.2 }) channel

theorem store_append (channel : Ch → Channel) (pairs : List (Ch × EventMask))
    (e : Ch × EventMask) : store channel (pairs ++ [e]) =
      Function.update (store channel pairs) e.1
        { store channel pairs e.1 with revents_ := e.2 } := by
  rw [store, List.foldl_append]
  rfl

/-- Only `revents_` is stored. -/
theorem store_fields (channel : Ch → Channel) (pairs : List (Ch × EventMask)) (c : Ch) :
    ∃ revents, store channel pairs c = { channel c with revents_ := revents } := by
  induction pairs using List.reverseRecOn with
  | nil => exact ⟨(channel c).revents_, rfl⟩
  | append_singleton pairs e ih =>
    obtain ⟨revents, hc⟩ := ih
    rw [store_append, Function.update_apply]
    split
    · rename_i heq
      subst heq
      exact ⟨e.2, by rw [hc]⟩
    · exact ⟨revents, hc⟩

/-- A channel that is not reported keeps its `revents_`. -/
theorem store_of_not_mem {channel : Ch → Channel} {pairs : List (Ch × EventMask)} {c : Ch}
    (hc : c ∉ pairs.map Prod.fst) : store channel pairs c = channel c := by
  induction pairs using List.reverseRecOn with
  | nil => rfl
  | append_singleton pairs e ih =>
    rw [List.map_append, List.mem_append, not_or] at hc
    rw [store_append, Function.update_of_ne (by simpa using hc.2)]
    exact ih hc.1

/-- A channel that is reported once gets the events of its fd. -/
theorem store_of_mem {channel : Ch → Channel} {pairs : List (Ch × EventMask)}
    (hnodup : (pairs.map Prod.fst).Nodup) {c : Ch} {revents : EventMask}
    (hc : (c, revents) ∈ pairs) :
    store channel pairs c = { channel c with revents_ := revents } := by
  induction pairs using List.reverseRecOn with
  | nil => cases hc
  | append_singleton pairs e ih =>
    rw [List.map_append, List.nodup_append] at hnodup
    obtain ⟨hnodup, -, hapart⟩ := hnodup
    rw [store_append]
    rcases List.mem_append.mp hc with hc | hc
    · -- an earlier event, which the last one does not overwrite
      have hne : c ≠ e.1 := hapart c (List.mem_map_of_mem hc) e.1 (by simp)
      rw [Function.update_of_ne hne]
      exact ih hnodup hc
    · obtain rfl := List.mem_singleton.mp hc
      obtain ⟨old, hold⟩ := store_fields channel pairs c
      rw [Function.update_self, hold]

/-- The poller after the channels have been filled in and listed. -/
def listing (s : EventPoller Ch) (pairs : List (Ch × EventMask)) : EventPoller Ch :=
  { s with
    polled := { s.polled with channel := store s.polled.channel pairs }
    activeChannels_ := s.activeChannels_ ++ pairs.map Prod.fst }

/-- `fillActiveChannels` on an array whose first slots point to channels. -/
theorem fillActiveChannels_eq {s : EventPoller Ch} (pairs : List (Ch × EventMask))
    {rest : List (EpollEvent Ch)}
    (hevents : s.events_ = pairs.map (fun e => ⟨e.2, some e.1⟩) ++ rest) :
    s.fillActiveChannels pairs.length = some (s.listing pairs) := by
  -- the slots one after the other
  have hprefix : ∀ k ≤ pairs.length,
      (List.range k).foldlM fillActiveChannel s = some (s.listing (pairs.take k)) := by
    intro k hk
    induction k with
    | zero =>
      rw [List.take_zero, listing, List.map_nil, List.append_nil]
      rfl
    | succ k ih =>
      have hlt : k < pairs.length := hk
      have hslot : (s.listing (pairs.take k)).events_[k]? =
          some ⟨pairs[k].2, some pairs[k].1⟩ := by
        have hfield : (s.listing (pairs.take k)).events_ = s.events_ := rfl
        rw [hfield, hevents, List.getElem?_append_left (by simpa using hlt)]
        simp [hlt]
      rw [List.range_succ, List.foldlM_append, ih (Nat.le_of_lt hlt)]
      simp only [Option.bind_eq_bind, Option.bind_some, List.foldlM_cons, List.foldlM_nil,
        fillActiveChannel, hslot, Option.pure_def]
      rw [List.take_succ_eq_append_getElem hlt]
      simp only [listing, set_revents, store_append, List.map_append, List.map_cons, List.map_nil,
        List.append_assoc]
  rw [fillActiveChannels, hprefix _ (Nat.le_refl _), List.take_length]

/-! ## §4 One `poll` -/

/-- The fds that are ready belong to registered channels. -/
structure Owned (fds : ChannelFds Ch) (s : EventPoller Ch) (ready : List (Int × EventMask))
    (pairs : List (Ch × EventMask)) : Prop where
  ready_eq : ready = pairs.map fun e => (fds.fd e.1, e.2)
  nodup : (pairs.map Prod.fst).Nodup
  added : ∀ e ∈ pairs, (s.polled.channel e.1).index_ = .kAdded

omit [DecidableEq Ch] in
/-- What the kernel reports is owned by channels, each reported once. -/
theorem exists_owned {fds : ChannelFds Ch} {s : EventPoller Ch}
    (h : PolledChannels.Inv fds s.polled) {ready : List (Int × EventMask)}
    (hready : reportable s.polled.poller ready = true) :
    ∃ pairs, Owned fds s ready pairs := by
  rw [reportable, Bool.and_eq_true, decide_eq_true_iff, List.all_eq_true] at hready
  obtain ⟨hnodup, hall⟩ := hready
  have hpairs : ∃ pairs : List (Ch × EventMask), ready = pairs.map (fun e => (fds.fd e.1, e.2)) ∧
      ∀ e ∈ pairs, (s.polled.channel e.1).index_ = .kAdded := by
    clear hnodup
    induction ready with
    | nil => exact ⟨[], rfl, fun e he => by cases he⟩
    | cons e ready ih =>
      obtain ⟨pairs, rfl, hadded⟩ := ih fun e' he' => hall e' (List.mem_cons_of_mem _ he')
      have he := hall e (List.mem_cons_self ..)
      cases hentry : s.polled.poller.interest e.1 with
      | none =>
        rw [hentry] at he
        cases he
      | some entry =>
        obtain ⟨hfd, hindex, -⟩ := (h.interest_iff e.1 entry.1 entry.2).mp hentry
        refine ⟨(entry.2, e.2) :: pairs, by rw [List.map_cons, hfd], fun e' he' => ?_⟩
        rcases List.mem_cons.mp he' with rfl | he'
        · exact hindex
        · exact hadded e' he'
  obtain ⟨pairs, rfl, hadded⟩ := hpairs
  refine ⟨pairs, rfl, ?_, hadded⟩
  -- distinct fds belong to distinct channels
  refine List.Nodup.of_map fds.fd ?_
  rw [List.map_map] at hnodup ⊢
  exact hnodup

omit [DecidableEq Ch] in
/-- The cast of a size that the kernel takes. -/
theorem maxevents_eq {s : EventPoller Ch} (hmax : s.events_.length ≤ EP_MAX_EVENTS) :
    s.maxevents = s.events_.length := by
  rw [EP_MAX_EVENTS] at hmax
  rw [maxevents, BitVec.toInt_ofNat', Int.bmod_eq_of_le] <;> omega

/-- What `poll` does when the channels of `pairs` are ready. -/
structure Polled (s t : EventPoller Ch) (pairs : List (Ch × EventMask)) : Prop where
  polled : t.polled = { s.polled with
    channel := store s.polled.channel (pairs.take s.events_.length) }
  activeChannels : t.activeChannels_ = (pairs.take s.events_.length).map Prod.fst
  reports : t.reports = s.reports ++ [(pairs.length, min s.events_.length pairs.length)]
  errors : t.errors = s.errors
  length : t.events_.length =
    if s.events_.length ≤ pairs.length then s.events_.length * 2 else s.events_.length

theorem pollReady_spec {fds : ChannelFds Ch} {s : EventPoller Ch}
    (h : PolledChannels.Inv fds s.polled) (hpos : 0 < s.events_.length)
    (hmax : s.events_.length ≤ EP_MAX_EVENTS) {ready : List (Int × EventMask)}
    {pairs : List (Ch × EventMask)} (howned : Owned fds s ready pairs) :
    ∃ t, s.pollReady ready = some t ∧ Polled s t pairs := by
  obtain ⟨rfl, -, hadded⟩ := howned
  have hptr : ∀ e ∈ pairs, (s.polled.poller.interest (fds.fd e.1)).map Prod.snd = some e.1 := by
    intro e he
    rw [(h.interest_iff (fds.fd e.1) _ e.1).mpr ⟨rfl, hadded e he, rfl⟩, Option.map_some]
  have hwait : epoll_wait s.polled.poller (pairs.map fun e => (fds.fd e.1, e.2)) s.maxevents =
      .events ((pairs.take s.events_.length).map fun e => ⟨e.2, some e.1⟩) := by
    rw [epoll_wait, maxevents_eq hmax, if_neg (by omega), Int.toNat_natCast, ← List.map_take,
      List.map_map]
    congr 1
    refine List.map_congr_left fun e he => ?_
    rw [Function.comp_apply, hptr e (List.mem_of_mem_take he)]
  rw [pollReady, hwait]
  -- the slots after the kernel has written to them, and their number
  have hslots : ((pairs.take s.events_.length).map (fun e => EpollEvent.mk e.2 (some e.1)) ++
      s.events_.drop (pairs.take s.events_.length).length).length = s.events_.length := by
    rw [List.length_append, List.length_map, List.length_drop, List.length_take]
    omega
  simp only [poll, List.length_map, Option.bind_eq_bind]
  by_cases hnone : 0 < (pairs.take s.events_.length).length
  · rw [if_pos hnone]
    rw [fillActiveChannels_eq (pairs.take s.events_.length) rfl, Option.bind_some]
    simp only [listing, hslots]
    split
    · rename_i hfull
      have hfull : s.events_.length ≤ pairs.length := by
        rw [List.length_take] at hfull
        omega
      refine ⟨_, rfl, rfl, List.nil_append _, ?_, rfl, ?_⟩
      · simp
      · simp only [resizeEvents, List.length_append, List.length_take, List.length_replicate]
        rw [if_pos hfull]
        omega
    · rename_i hroom
      have hroom : ¬s.events_.length ≤ pairs.length := by
        rw [List.length_take] at hroom
        omega
      refine ⟨_, rfl, rfl, List.nil_append _, ?_, rfl, ?_⟩
      · simp
      · rw [if_neg hroom]
        exact hslots
  · -- nothing is ready, as there are slots
    have hempty : pairs = [] := by
      rw [List.length_take] at hnone
      exact List.eq_nil_of_length_eq_zero (by omega)
    subst hempty
    rw [if_neg hnone]
    refine ⟨_, rfl, ?_, ?_, ?_, rfl, ?_⟩
    · simp [store]
    · simp
    · simp
    · simp only [List.length_nil]
      rw [if_neg (Nat.not_le_of_lt hpos)]
      exact hslots

/-! ## §5 Whole runs -/

/-- The polls that left out a ready channel. -/
def short (s : EventPoller Ch) : List (Nat × Nat) := s.reports.filter fun e => e.2 < e.1

/-- The invariant of the poller, when at most `most` fds are ever ready at once. -/
structure Inv (fds : ChannelFds Ch) (most : Nat) (s : EventPoller Ch) : Prop where
  polled : PolledChannels.Inv fds s.polled
  errors : s.errors = []
  /-- `events_` doubles with every poll that leaves a channel out. -/
  enough : kInitEventListSize * 2 ^ s.short.length ≤ s.events_.length
  bounded : s.events_.length ≤ max kInitEventListSize (2 * most)
  few : s.short = [] ∨ kInitEventListSize * 2 ^ (s.short.length - 1) < most

/-- At most `most` fds are ready. -/
def Act.AtMost (most : Nat) (a : Act Ch) : Prop := ∀ ready, a = .poll ready → ready.length ≤ most

omit [DecidableEq Ch] in
theorem inv_new (fds : ChannelFds Ch) (most : Nat) : Inv fds most (new fds) where
  polled := PolledChannels.inv_new fds
  errors := rfl
  enough := by simp [new, short]
  bounded := by
    simp only [new, List.length_replicate]
    exact Nat.le_max_left _ _
  few := .inl rfl

omit [DecidableEq Ch] in
/-- New `revents_` are not seen by the poller. -/
theorem inv_store {fds : ChannelFds Ch} {s : PolledChannels Ch} (h : PolledChannels.Inv fds s)
    {channel : Ch → Channel}
    (hfields : ∀ c, ∃ revents, channel c = { s.channel c with revents_ := revents }) :
    PolledChannels.Inv fds { s with channel := channel } where
  fd c := by
    obtain ⟨revents, hc⟩ := hfields c
    simp only [hc]
    exact h.fd c
  agrees c := by
    obtain ⟨revents, hc⟩ := hfields c
    simp only [hc]
    exact ⟨(h.agrees c).interest_eq, (h.agrees c).channels_eq⟩
  others := h.others
  fits := h.fits

omit [DecidableEq Ch] in
theorem Inv.length_pos {fds : ChannelFds Ch} {most : Nat} {s : EventPoller Ch}
    (h : Inv fds most s) : 0 < s.events_.length :=
  Nat.lt_of_lt_of_le (Nat.mul_pos (by decide) (Nat.two_pow_pos _)) h.enough

omit [DecidableEq Ch] in
/-- The kernel takes the size of `events_`. -/
theorem Inv.length_le {fds : ChannelFds Ch} {most : Nat} {s : EventPoller Ch}
    (h : Inv fds most s) (hmost : most ≤ EP_MAX_EVENTS / 2) :
    s.events_.length ≤ EP_MAX_EVENTS := by
  have hlen := h.bounded
  simp only [kInitEventListSize, EP_MAX_EVENTS] at hlen hmost ⊢
  omega

/-- A `poll` of at most `most` fds keeps the invariant. -/
theorem Inv.of_polled {fds : ChannelFds Ch} {most : Nat} {s t : EventPoller Ch}
    (h : Inv fds most s) {pairs : List (Ch × EventMask)} (hp : Polled s t pairs)
    (hmost : pairs.length ≤ most) : Inv fds most t := by
  have hpolled : PolledChannels.Inv fds t.polled := by
    rw [hp.polled]
    exact inv_store h.polled fun c => store_fields ..
  have herrors : t.errors = [] := hp.errors.trans h.errors
  have henough := h.enough
  have hlen := hp.length
  by_cases hshort : s.events_.length < pairs.length
  · -- a channel is left out, and `events_` doubles
    have hone : t.short.length = s.short.length + 1 := by
      rw [EventPoller.short, hp.reports, List.filter_append, List.length_append,
        Nat.min_eq_left (by omega)]
      simp [EventPoller.short, hshort]
    rw [if_pos (by omega)] at hlen
    refine ⟨hpolled, herrors, ?_, ?_, .inr ?_⟩
    · rw [hone, Nat.pow_succ, ← Nat.mul_assoc]
      omega
    · omega
    · rw [hone, Nat.add_sub_cancel]
      omega
  · have hsame : t.short = s.short := by
      rw [EventPoller.short, hp.reports, List.filter_append, Nat.min_eq_right (by omega)]
      simp [EventPoller.short]
    refine ⟨hpolled, herrors, ?_, ?_, ?_⟩
    · rw [hsame, hlen]
      split <;> omega
    · have hold := h.bounded
      rw [hlen]
      split <;> omega
    · rw [hsame]
      exact h.few

/-- Every step keeps the invariant. -/
theorem Inv.step {fds : ChannelFds Ch} {most : Nat} {s : EventPoller Ch} (h : Inv fds most s)
    (hmost : most ≤ EP_MAX_EVENTS / 2) {a : Act Ch} (ha : a.AtMost most)
    (he : machine.enabled s a = true) : ∃ t, machine.step s a = some t ∧ Inv fds most t := by
  cases a with
  | channel c op =>
    obtain ⟨polled, hstep, hinv⟩ := h.polled.step (c, op)
    refine ⟨{ s with polled := polled }, ?_, ⟨hinv, h.errors, h.enough, h.bounded, h.few⟩⟩
    have hmap : machine.step s (.channel c op) =
        (s.polled.step (c, op)).map fun polled => { s with polled := polled } := rfl
    rw [hmap, hstep, Option.map_some]
  | poll ready =>
    obtain ⟨pairs, howned⟩ := exists_owned h.polled he
    obtain ⟨t, ht, hp⟩ := pollReady_spec h.polled h.length_pos (h.length_le hmost) howned
    refine ⟨t, ht, h.of_polled hp ?_⟩
    have hle := ha ready rfl
    rw [howned.ready_eq, List.length_map] at hle
    exact hle
  | interrupted =>
    exact ⟨{ s with activeChannels_ := [] }, rfl,
      ⟨h.polled, h.errors, h.enough, h.bounded, h.few⟩⟩

/-- Every run keeps the invariant. -/
theorem Inv.reaches {fds : ChannelFds Ch} {most : Nat} (hmost : most ≤ EP_MAX_EVENTS / 2)
    {as : List (Act Ch)} {s : EventPoller Ch} (hrun : machine.Reaches (new fds) as s)
    (has : ∀ a ∈ as, a.AtMost most) : Inv fds most s := by
  refine Machine.invariant_reaches_along (inv_new fds most) ?_ (hrun.along has)
  intro t a u h he ha hu
  obtain ⟨v, hv, hinv⟩ := h.step hmost ha he
  rw [hu, Option.some.injEq] at hv
  exact hv ▸ hinv

/-- **What a `poll` reports.** After any run in which at most `most` fds were ready at once, a
    `poll` reports as many ready fds as `events_` has slots. The channels listed are distinct,
    registered and known to the poller, and each has got the events of its fd as `revents_`; no
    other channel is touched. If there were slots enough, the channel of every ready fd is
    listed. -/
theorem poll_reports (fds : ChannelFds Ch) {most : Nat} (hmost : most ≤ EP_MAX_EVENTS / 2)
    {as : List (Act Ch)} {s : EventPoller Ch} (hrun : machine.Reaches (new fds) as s)
    (has : ∀ a ∈ as, a.AtMost most) {ready : List (Int × EventMask)}
    (he : machine.enabled s (.poll ready) = true) :
    ∃ t, machine.step s (.poll ready) = some t ∧ t.activeChannels_.Nodup ∧
      t.activeChannels_.length = min s.events_.length ready.length ∧
      (∀ c ∈ t.activeChannels_, (s.polled.channel c).index_ = .kAdded ∧
        s.polled.poller.hasChannel c (s.polled.channel c) = true ∧
        ∃ revents, (fds.fd c, revents) ∈ ready ∧
          t.polled.channel c = { s.polled.channel c with revents_ := revents }) ∧
      (∀ c, c ∉ t.activeChannels_ → t.polled.channel c = s.polled.channel c) ∧
      (ready.length ≤ s.events_.length → ∀ e ∈ ready, ∃ c ∈ t.activeChannels_, fds.fd c = e.1) := by
  have hinv := Inv.reaches hmost hrun has
  obtain ⟨pairs, howned⟩ := exists_owned hinv.polled he
  obtain ⟨t, ht, hp⟩ := pollReady_spec hinv.polled hinv.length_pos (hinv.length_le hmost) howned
  obtain ⟨rfl, hnodup, hadded⟩ := howned
  have hshown : ((pairs.take s.events_.length).map Prod.fst).Nodup := by
    rw [List.map_take]
    exact hnodup.sublist (List.take_sublist _ _)
  refine ⟨t, ht, ?_, ?_, fun c hc => ?_, fun c hc => ?_, fun hroom e he => ?_⟩
  · rw [hp.activeChannels]
    exact hshown
  · rw [hp.activeChannels, List.length_map, List.length_take, List.length_map]
  · rw [hp.activeChannels] at hc
    obtain ⟨e, hmem, rfl⟩ := List.mem_map.mp hc
    have hindex := hadded e (List.mem_of_mem_take hmem)
    refine ⟨hindex, (hinv.polled.hasChannel_iff e.1).mpr ?_, e.2, ?_, ?_⟩
    · rw [hindex]
      decide
    · exact List.mem_map.mpr ⟨e, List.mem_of_mem_take hmem, rfl⟩
    · rw [hp.polled]
      exact store_of_mem hshown hmem
  · rw [hp.activeChannels] at hc
    rw [hp.polled]
    exact store_of_not_mem hc
  · obtain ⟨e', hmem, rfl⟩ := List.mem_map.mp he
    rw [List.length_map] at hroom
    rw [hp.activeChannels, List.take_of_length_le hroom]
    exact ⟨e'.1, List.mem_map_of_mem hmem, rfl⟩

/-- **Polls that fall short are few.** In every run in which at most `most` fds are ready at once,
    no `epoll_wait` fails but for signals, `events_` has never less than 16 slots nor more than the
    greater of 16 and twice `most`; and the polls that left a ready channel out, in the whole run,
    are none or `k` with `16 * 2 ^ (k - 1) < most`: a channel that stays ready is not starved. -/
theorem short_polls_bounded (fds : ChannelFds Ch) {most : Nat} (hmost : most ≤ EP_MAX_EVENTS / 2)
    {as : List (Act Ch)} {s : EventPoller Ch} (hrun : machine.Reaches (new fds) as s)
    (has : ∀ a ∈ as, a.AtMost most) :
    s.errors = [] ∧ 16 ≤ s.events_.length ∧ s.events_.length ≤ max 16 (2 * most) ∧
      (s.short = [] ∨ 16 * 2 ^ (s.short.length - 1) < most) := by
  have hinv := Inv.reaches hmost hrun has
  have henough := hinv.enough
  have hpow : 0 < 2 ^ s.short.length := Nat.two_pow_pos _
  simp only [kInitEventListSize] at henough
  exact ⟨hinv.errors, by omega, hinv.bounded, hinv.few⟩

/-- Seventeen channels, one more than there are slots at first. -/
def manyFds : ChannelFds (Fin 17) where
  fd c := (c.val : Int)
  distinct _ _ h := Fin.ext (Int.ofNat.inj h)

/-- All of them become readable. -/
def manyReady : List (Int × EventMask) := (List.finRange 17).map fun c => ((c.val : Int), EPOLLIN)

/-- They are registered, a signal comes, and the first `poll` has no slot for the last one. -/
def manyRun : List (Act (Fin 17)) :=
  (List.finRange 17).map (fun c => .channel c .enableReading) ++ [.interrupted, .poll manyReady]

theorem manyRun_most : ∀ a ∈ manyRun, a.AtMost 17 := by
  rintro a ha ready rfl
  have hready : ready = manyReady := by simpa [manyRun] using ha
  subst hready
  decide

theorem manyRun_ends : ∃ s, machine.Reaches (new manyFds) manyRun s ∧
    machine.enabled s (.poll manyReady) = true ∧ s.events_.length = 32 ∧
      s.short = [(17, 16)] := by
  have hrun : ((machine.run (new manyFds) manyRun).any fun s =>
      machine.enabled s (.poll manyReady) && s.events_.length == 32 && s.short == [(17, 16)]) =
        true := by decide +kernel
  cases hs : machine.run (new manyFds) manyRun with
  | none =>
    rw [hs] at hrun
    cases hrun
  | some s =>
    rw [hs, Option.any_some, Bool.and_eq_true, Bool.and_eq_true, beq_iff_eq, beq_iff_eq] at hrun
    exact ⟨s, Machine.reaches_of_run hs, hrun.1.1, hrun.1.2, hrun.2⟩

/-- The second `poll` lists all seventeen. -/
theorem manyRun_reports : ∃ s t, machine.Reaches (new manyFds) manyRun s ∧
    machine.step s (.poll manyReady) = some t ∧ t.activeChannels_.Nodup ∧
      ∀ e ∈ manyReady, ∃ c ∈ t.activeChannels_, manyFds.fd c = e.1 := by
  obtain ⟨s, hrun, he, hlen, -⟩ := manyRun_ends
  have hslots : manyReady.length ≤ s.events_.length := by
    rw [hlen]
    decide
  obtain ⟨t, ht, hnodup, -, -, -, hall⟩ :=
    poll_reports manyFds (by decide) hrun manyRun_most he
  exact ⟨s, t, hrun, ht, hnodup, hall hslots⟩

theorem manyRun_short : ∃ s, machine.Reaches (new manyFds) manyRun s ∧ s.short ≠ [] ∧
    s.errors = [] ∧ 16 ≤ s.events_.length ∧ s.events_.length ≤ max 16 (2 * 17) ∧
      (s.short = [] ∨ 16 * 2 ^ (s.short.length - 1) < 17) := by
  obtain ⟨s, hrun, -, -, hshort⟩ := manyRun_ends
  refine ⟨s, hrun, by simp [hshort], ?_⟩
  exact short_polls_bounded manyFds (by decide) hrun manyRun_most

end EventPoller

end RainWebServer.Net
