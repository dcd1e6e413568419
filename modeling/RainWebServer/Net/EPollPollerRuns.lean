import RainWebServer.Lib.Machine
import RainWebServer.Net.EPollPoller

/-!
# EPollPoller: Any Operations on Any Channels

Embeds `enableReading` .. `disableAll` of `include/net/Channel.h`, `remove` of `src/net/Channel.cc`
and `hasChannel` of `src/net/Poller.cc`, and runs them in any order on any channels of one poller.

The functions of `EPollPoller.cc` are here on a state that holds all channels and a record of the
calls of `epoll_ctl`; without the record they are those of `EPollPoller` (`updateChannel_eq`,
`removeChannel_eq`).

## Main result

`views_agree` : after any operations the interest list, `channels_`, the indices and the masks say
the same, and no `epoll_ctl` was called for an fd in the wrong state
-/

namespace RainWebServer.Net

open RainWebServer.Lib

variable {Ch : Type}

/-! ## §1 Channels on one poller -/

/-- The fds of a set of channels, pairwise distinct. -/
structure ChannelFds (Ch : Type) where
  fd : Ch → Int
  distinct : Function.Injective fd

/-- A call of `epoll_ctl`, with whether the fd was in the interest list. -/
structure CtlCall where
  operation : EpollCtl
  fd : Int
  present : Bool
  deriving DecidableEq, Repr

/-- The call finds the fd as its operation needs it: neither EEXIST nor ENOENT. -/
def CtlCall.Fits (call : CtlCall) : Prop :=
  call.present = true ↔ call.operation ≠ .EPOLL_CTL_ADD

/-- `Poller::hasChannel`. -/
def EPollPoller.hasChannel [DecidableEq Ch] (p : EPollPoller Ch) (self : Ch) (channel : Channel) :
    Bool :=
  match p.channels_ channel.fd_ with
  | none => false
  | some c => c = self

/-- An operation on a channel. -/
inductive ChannelOp where
  | enableReading
  | disableReading
  | enableWriting
  | disableWriting
  | disableAll
  | remove
  deriving DecidableEq, Repr

/-- The poller, the channels, and the calls of `epoll_ctl` so far. -/
structure PolledChannels (Ch : Type) where
  poller : EPollPoller Ch
  channel : Ch → Channel
  calls : List CtlCall

/-- Fresh channels on a new poller. -/
def PolledChannels.new (fds : ChannelFds Ch) : PolledChannels Ch :=
  ⟨EPollPoller.new, fun c => Channel.new (fds.fd c), []⟩

namespace PolledChannels

variable [DecidableEq Ch]

/-- `set_index`. -/
def set_index (s : PolledChannels Ch) (c : Ch) (index : ChannelIndex) : PolledChannels Ch :=
  { s with channel := Function.update s.channel c { s.channel c with index_ := index } }

/-- `EPollPoller::update`. -/
def update (s : PolledChannels Ch) (operation : EpollCtl) (c : Ch) :
    Option (PolledChannels Ch) := do
  let poller ← s.poller.update operation c (s.channel c)
  let fd := (s.channel c).fd_
  some { s with
    poller := poller
    calls := s.calls ++ [⟨operation, fd, (s.poller.interest fd).isSome⟩] }

/-- `EPollPoller::updateChannel`. -/
def updateChannel (s : PolledChannels Ch) (c : Ch) : Option (PolledChannels Ch) :=
  match (s.channel c).index_ with
  | .kNew =>
    let s := { s with poller := s.poller.setChannel (s.channel c).fd_ (some c) }
    (s.set_index c .kAdded).update .EPOLL_CTL_ADD c
  | .kDeleted => (s.set_index c .kAdded).update .EPOLL_CTL_ADD c
  | .kAdded =>
    if (s.channel c).isNoneEvent then do
      let s ← s.update .EPOLL_CTL_DEL c
      some (s.set_index c .kDeleted)
    else s.update .EPOLL_CTL_MOD c

/-- `EPollPoller::removeChannel`. -/
def removeChannel (s : PolledChannels Ch) (c : Ch) : Option (PolledChannels Ch) := do
  let s := { s with poller := s.poller.setChannel (s.channel c).fd_ none }
  let s ← if (s.channel c).index_ = .kAdded then s.update .EPOLL_CTL_DEL c else some s
  some (s.set_index c .kNew)

/-- Set `events_`. -/
def setMask (s : PolledChannels Ch) (c : Ch) (events : EventMask) : PolledChannels Ch :=
  { s with channel := Function.update s.channel c { s.channel c with events_ := events } }

/-- Set `events_` and call `update()`. -/
def setEvents (s : PolledChannels Ch) (c : Ch) (events : EventMask) : Option (PolledChannels Ch) :=
  (s.setMask c events).updateChannel c

/-- `enableReading`. -/
def enableReading (s : PolledChannels Ch) (c : Ch) : Option (PolledChannels Ch) :=
  s.setEvents c ((s.channel c).events_ ||| kReadEvent)

/-- `disableReading`. -/
def disableReading (s : PolledChannels Ch) (c : Ch) : Option (PolledChannels Ch) :=
  s.setEvents c ((s.channel c).events_ &&& ~~~kReadEvent)

/-- `enableWriting`. -/
def enableWriting (s : PolledChannels Ch) (c : Ch) : Option (PolledChannels Ch) :=
  s.setEvents c ((s.channel c).events_ ||| kWriteEvent)

/-- `disableWriting`. -/
def disableWriting (s : PolledChannels Ch) (c : Ch) : Option (PolledChannels Ch) :=
  s.setEvents c ((s.channel c).events_ &&& ~~~kWriteEvent)

/-- `disableAll`. -/
def disableAll (s : PolledChannels Ch) (c : Ch) : Option (PolledChannels Ch) :=
  s.setEvents c kNoneEvent

/-- `remove`. -/
def remove (s : PolledChannels Ch) (c : Ch) : Option (PolledChannels Ch) := s.removeChannel c

/-- One operation. -/
def step (s : PolledChannels Ch) : Ch × ChannelOp → Option (PolledChannels Ch)
  | (c, .enableReading) => s.enableReading c
  | (c, .disableReading) => s.disableReading c
  | (c, .enableWriting) => s.enableWriting c
  | (c, .disableWriting) => s.disableWriting c
  | (c, .disableAll) => s.disableAll c
  | (c, .remove) => s.remove c

/-- The channels as a machine, on which every operation can be called at any time. -/
def machine : Machine (PolledChannels Ch) (Ch × ChannelOp) := ⟨fun _ _ => true, step⟩

/-! ## §2 The calls of `epoll_ctl` left out -/

/-- What the operation makes of the poller and the channels. -/
def withPolled (s : PolledChannels Ch) (c : Ch) (polled : EPollPoller Ch × Channel) :
    EPollPoller Ch × (Ch → Channel) :=
  (polled.1, Function.update s.channel c polled.2)

/-- Without the record, `updateChannel` is that of the poller. -/
theorem updateChannel_eq (s : PolledChannels Ch) (c : Ch) :
    (s.updateChannel c).map (fun t => (t.poller, t.channel)) =
      (s.poller.updateChannel c (s.channel c)).map (s.withPolled c) := by
  unfold updateChannel EPollPoller.updateChannel
  cases hindex : (s.channel c).index_ with
  | kNew => simp [update, set_index, withPolled, Function.comp_def, Option.map_bind]
  | kDeleted => simp [update, set_index, withPolled, Function.comp_def, Option.map_bind]
  | kAdded =>
    simp only
    split
    · simp [update, set_index, withPolled, Function.comp_def, Option.map_bind, Option.bind_assoc]
    · simp only [update]
      cases s.poller.update .EPOLL_CTL_MOD c (s.channel c) with
      | none => rfl
      | some poller => simp [withPolled]

/-- Without the record, `removeChannel` is that of the poller. -/
theorem removeChannel_eq (s : PolledChannels Ch) (c : Ch) :
    (s.removeChannel c).map (fun t => (t.poller, t.channel)) =
      (s.poller.removeChannel c (s.channel c)).map (s.withPolled c) := by
  unfold removeChannel EPollPoller.removeChannel
  by_cases hindex : (s.channel c).index_ = .kAdded
  · simp [hindex, update, set_index, withPolled, Function.comp_def, Option.map_bind,
      Option.bind_assoc]
  · simp [hindex, set_index, withPolled]

/-! ## §3 What was called -/

/-- The interest list holds the channel's fd exactly if the index says so. -/
def Listed (s : PolledChannels Ch) (c : Ch) : Prop :=
  (s.poller.interest (s.channel c).fd_).isSome = true ↔ (s.channel c).index_ = .kAdded

omit [DecidableEq Ch] in
theorem calls_update {s t : PolledChannels Ch} {operation : EpollCtl} {c : Ch}
    (h : s.update operation c = some t) :
    t.calls = s.calls ++
      [⟨operation, (s.channel c).fd_, (s.poller.interest (s.channel c).fd_).isSome⟩] := by
  obtain ⟨poller, -, ht⟩ := Option.bind_eq_some_iff.mp h
  cases ht
  rfl

/-- The call that `updateChannel` makes fits. -/
theorem calls_updateChannel {s t : PolledChannels Ch} {c : Ch} (hlisted : s.Listed c)
    (h : s.updateChannel c = some t) : ∃ call, t.calls = s.calls ++ [call] ∧ call.Fits := by
  unfold updateChannel at h
  unfold Listed at hlisted
  cases hindex : (s.channel c).index_ with
  | kNew =>
    simp only [hindex] at h
    -- the fd is not listed, and is added
    have hcalls := calls_update h
    refine ⟨_, hcalls, ?_⟩
    simp [CtlCall.Fits, set_index, hindex, hlisted]
  | kDeleted =>
    simp only [hindex] at h
    have hcalls := calls_update h
    refine ⟨_, hcalls, ?_⟩
    simp [CtlCall.Fits, set_index, hindex, hlisted]
  | kAdded =>
    simp only [hindex] at h
    -- an empty mask deletes the fd, any other one replaces its mask
    split at h
    · obtain ⟨u, hu, ht⟩ := Option.bind_eq_some_iff.mp h
      cases ht
      have hcalls := calls_update hu
      refine ⟨_, hcalls, ?_⟩
      simp [CtlCall.Fits, hindex, hlisted]
    · have hcalls := calls_update h
      refine ⟨_, hcalls, ?_⟩
      simp [CtlCall.Fits, hindex, hlisted]

/-- The call that `removeChannel` makes fits, if it makes one. -/
theorem calls_removeChannel {s t : PolledChannels Ch} {c : Ch} (hlisted : s.Listed c)
    (h : s.removeChannel c = some t) :
    ∃ calls, t.calls = s.calls ++ calls ∧ ∀ call ∈ calls, call.Fits := by
  unfold removeChannel at h
  unfold Listed at hlisted
  by_cases hindex : (s.channel c).index_ = .kAdded
  · simp only [hindex, if_true] at h
    obtain ⟨u, hu, ht⟩ := Option.bind_eq_some_iff.mp h
    cases ht
    have hcalls := calls_update hu
    refine ⟨_, hcalls, ?_⟩
    simp [CtlCall.Fits, hindex, hlisted]
  · -- a channel that is not listed makes no call
    simp only [hindex, if_false] at h
    cases h
    exact ⟨[], (List.append_nil _).symm, by simp⟩

/-! ## §4 The invariant -/

/-- The invariant of the channels and their poller. -/
structure Inv (fds : ChannelFds Ch) (s : PolledChannels Ch) : Prop where
  fd : ∀ c, (s.channel c).fd_ = fds.fd c
  agrees : ∀ c, s.poller.Agrees c (s.channel c)
  /-- No fd is known that is not a channel's. -/
  others : ∀ fd, (∀ c, fds.fd c ≠ fd) → s.poller.interest fd = none ∧ s.poller.channels_ fd = none
  fits : ∀ call ∈ s.calls, call.Fits

omit [DecidableEq Ch] in
theorem inv_new (fds : ChannelFds Ch) : Inv fds (new fds) :=
  ⟨fun _ => rfl, fun c => EPollPoller.agrees_new c _, fun _ _ => ⟨rfl, rfl⟩,
    fun call h => by cases h⟩

omit [DecidableEq Ch] in
theorem Inv.listed {fds : ChannelFds Ch} {s : PolledChannels Ch} (h : Inv fds s) (c : Ch) :
    s.Listed c := by
  unfold Listed
  rw [(h.agrees c).interest_eq, EPollPoller.entryOf]
  split
  · simp [*]
  · simp [*]

/-- What an operation on the channel `c` leaves of the invariant. -/
theorem Inv.of_polled {fds : ChannelFds Ch} {s t : PolledChannels Ch} (h : Inv fds s) {c : Ch}
    {poller : EPollPoller Ch} {channel : Channel} {calls : List CtlCall}
    (hpoller : t.poller = poller) (hchannel : t.channel = Function.update s.channel c channel)
    (hfd : channel.fd_ = fds.fd c) (hagrees : poller.Agrees c channel)
    (hsame : EPollPoller.SameExcept s.poller poller (fds.fd c))
    (hcalls : t.calls = s.calls ++ calls)
    (hfits : ∀ call ∈ calls, call.Fits) : Inv fds t where
  fd d := by
    rw [hchannel, Function.update_apply]
    split
    · rename_i hd
      rw [hfd, hd]
    · exact h.fd d
  agrees d := by
    rw [hpoller, hchannel, Function.update_apply]
    split
    · rename_i hd
      rw [hd]
      exact hagrees
    · rename_i hd
      -- another channel has another fd
      refine (h.agrees d).frame hsame ?_
      rw [h.fd d]
      exact fun heq => hd (fds.distinct heq)
  others fd hfd' := by
    -- an fd that is no channel's is not the one of `c`
    have hne : fd ≠ fds.fd c := (hfd' c).symm
    rw [hpoller, hsame.interest fd hne, hsame.channels fd hne]
    exact h.others fd hfd'
  fits call hcall := by
    rw [hcalls] at hcall
    rcases List.mem_append.mp hcall with hcall | hcall
    · exact h.fits call hcall
    · exact hfits call hcall

/-- `update()` with a new mask. -/
theorem Inv.setEvents {fds : ChannelFds Ch} {s : PolledChannels Ch} (h : Inv fds s) (c : Ch)
    (events : EventMask) : ∃ t, s.setEvents c events = some t ∧ Inv fds t := by
  obtain ⟨poller, hpolled, hagrees, hsame⟩ := EPollPoller.updateChannel_spec (h.agrees c) events
  have hself : (s.setMask c events).channel c = { s.channel c with events_ := events } :=
    Function.update_self _ _ _
  have heq := updateChannel_eq (s.setMask c events) c
  rw [hself] at heq
  -- the poller does not notice the new mask before `update()`
  have hpolled' : (s.setMask c events).poller.updateChannel c _ = _ := hpolled
  rw [hpolled', Option.map_some] at heq
  obtain ⟨t, ht, hfields⟩ := Option.map_eq_some_iff.mp heq
  obtain ⟨hpoller, hchannel⟩ := Prod.mk.inj hfields
  have hlisted : (s.setMask c events).Listed c := by
    unfold Listed
    rw [hself]
    exact h.listed c
  obtain ⟨call, hcalls, hfits⟩ := calls_updateChannel hlisted ht
  have hchannel' : t.channel = Function.update s.channel c _ :=
    hchannel.trans (Function.update_idem _ _ _)
  rw [h.fd c] at hsame
  refine ⟨t, ht, h.of_polled hpoller hchannel' (h.fd c) hagrees hsame hcalls fun call' hcall => ?_⟩
  rw [List.mem_singleton.mp hcall]
  exact hfits

/-- `remove`. -/
theorem Inv.remove {fds : ChannelFds Ch} {s : PolledChannels Ch} (h : Inv fds s) (c : Ch) :
    ∃ t, s.remove c = some t ∧ Inv fds t := by
  obtain ⟨poller, hpolled, hagrees, hsame⟩ := EPollPoller.removeChannel_spec (h.agrees c)
  have heq := removeChannel_eq s c
  rw [hpolled, Option.map_some] at heq
  obtain ⟨t, ht, hfields⟩ := Option.map_eq_some_iff.mp heq
  obtain ⟨hpoller, hchannel⟩ := Prod.mk.inj hfields
  obtain ⟨calls, hcalls, hfits⟩ := calls_removeChannel (h.listed c) ht
  rw [h.fd c] at hsame
  exact ⟨t, ht, h.of_polled hpoller hchannel (h.fd c) hagrees hsame hcalls hfits⟩

/-- Every operation keeps the invariant. -/
theorem Inv.step {fds : ChannelFds Ch} {s : PolledChannels Ch} (h : Inv fds s)
    (a : Ch × ChannelOp) : ∃ t, s.step a = some t ∧ Inv fds t := by
  obtain ⟨c, op⟩ := a
  cases op with
  | enableReading => exact h.setEvents c _
  | disableReading => exact h.setEvents c _
  | enableWriting => exact h.setEvents c _
  | disableWriting => exact h.setEvents c _
  | disableAll => exact h.setEvents c _
  | remove => exact h.remove c

/-- Any operations run to their end, and keep the invariant. -/
theorem Inv.run {fds : ChannelFds Ch} {s : PolledChannels Ch} (h : Inv fds s)
    (ops : List (Ch × ChannelOp)) : ∃ t, machine.run s ops = some t ∧ Inv fds t := by
  induction ops generalizing s with
  | nil => exact ⟨s, rfl, h⟩
  | cons a ops ih =>
    obtain ⟨u, hu, hinv⟩ := h.step a
    obtain ⟨t, ht, hinv'⟩ := ih hinv
    refine ⟨t, ?_, hinv'⟩
    have henabled : machine.enabled s a = true := rfl
    have hstep : machine.step s a = some u := hu
    rw [Machine.run, if_pos henabled, hstep, Option.bind_some]
    exact ht

omit [DecidableEq Ch] in
/-- The interest list, read off the channels. -/
theorem Inv.interest_iff {fds : ChannelFds Ch} {s : PolledChannels Ch} (h : Inv fds s) (fd : Int)
    (mask : EventMask) (c : Ch) : s.poller.interest fd = some (mask, c) ↔
      fds.fd c = fd ∧ (s.channel c).index_ = .kAdded ∧ mask = (s.channel c).events_ := by
  have hentry : ∀ d, s.poller.interest (fds.fd d) = EPollPoller.entryOf d (s.channel d) := by
    intro d
    rw [← h.fd d]
    exact (h.agrees d).interest_eq
  constructor
  · intro hsome
    by_cases hex : ∃ d, fds.fd d = fd
    · -- the entry is that of the channel with this fd
      obtain ⟨d, rfl⟩ := hex
      rw [hentry, EPollPoller.entryOf] at hsome
      split at hsome
      · rename_i hindex
        cases hsome
        exact ⟨rfl, hindex, rfl⟩
      · cases hsome
    · rw [(h.others fd fun d hd => hex ⟨d, hd⟩).1] at hsome
      cases hsome
  · rintro ⟨rfl, hindex, rfl⟩
    rw [hentry, EPollPoller.entryOf, if_pos hindex]

omit [DecidableEq Ch] in
/-- `channels_`, read off the channels. -/
theorem Inv.channels_iff {fds : ChannelFds Ch} {s : PolledChannels Ch} (h : Inv fds s) (fd : Int)
    (c : Ch) : s.poller.channels_ fd = some c ↔ fds.fd c = fd ∧ (s.channel c).index_ ≠ .kNew := by
  have hentry : ∀ d, s.poller.channels_ (fds.fd d) = EPollPoller.mappedOf d (s.channel d) := by
    intro d
    rw [← h.fd d]
    exact (h.agrees d).channels_eq
  constructor
  · intro hsome
    by_cases hex : ∃ d, fds.fd d = fd
    · -- the entry is that of the channel with this fd
      obtain ⟨d, rfl⟩ := hex
      rw [hentry, EPollPoller.mappedOf] at hsome
      split at hsome
      · cases hsome
      · rename_i hindex
        cases hsome
        exact ⟨rfl, hindex⟩
    · rw [(h.others fd fun d hd => hex ⟨d, hd⟩).2] at hsome
      cases hsome
  · rintro ⟨rfl, hindex⟩
    rw [hentry, EPollPoller.mappedOf, if_neg hindex]

/-- `hasChannel`, read off the channels. -/
theorem Inv.hasChannel_iff {fds : ChannelFds Ch} {s : PolledChannels Ch} (h : Inv fds s) (c : Ch) :
    s.poller.hasChannel c (s.channel c) = true ↔ (s.channel c).index_ ≠ .kNew := by
  have hfind := (h.agrees c).channels_eq
  rw [EPollPoller.hasChannel, hfind, EPollPoller.mappedOf]
  by_cases hindex : (s.channel c).index_ = .kNew
  · simp [hindex]
  · simp [hindex]

/-- **The four views agree.** For any channels with distinct fds, fresh on a new poller, any
    operations run to their end, and then: an fd is in the interest list exactly if it belongs to a
    channel whose index is `kAdded`, with that channel's mask and pointer; `channels_` holds an fd
    exactly if it belongs to a channel whose index is not `kNew`, and `hasChannel` says so; and
    every ADD was called for an absent fd, every MOD and DEL for a present one. -/
theorem views_agree (fds : ChannelFds Ch) (ops : List (Ch × ChannelOp)) :
    ∃ s, machine.run (new fds) ops = some s ∧
      (∀ fd mask c, s.poller.interest fd = some (mask, c) ↔
        fds.fd c = fd ∧ (s.channel c).index_ = .kAdded ∧ mask = (s.channel c).events_) ∧
      (∀ fd c, s.poller.channels_ fd = some c ↔ fds.fd c = fd ∧ (s.channel c).index_ ≠ .kNew) ∧
      (∀ c, s.poller.hasChannel c (s.channel c) = true ↔ (s.channel c).index_ ≠ .kNew) ∧
      ∀ call ∈ s.calls, call.present = true ↔ call.operation ≠ .EPOLL_CTL_ADD := by
  obtain ⟨s, hrun, hinv⟩ := (inv_new fds).run ops
  exact ⟨s, hrun, hinv.interest_iff, hinv.channels_iff, hinv.hasChannel_iff, hinv.fits⟩

/-- Two channels, with the fds 3 and 4. -/
def twoFds : ChannelFds Bool where
  fd c := if c then 4 else 3
  distinct := by
    unfold Function.Injective
    decide

/-- The channel of fd 3 gets interested in reading and in writing, loses its interest, gets it back
    and is removed; that of fd 4 gets interested in writing in between. -/
def movingRun : List (Bool × ChannelOp) :=
  [(false, .enableReading), (false, .enableWriting), (true, .enableWriting), (false, .disableAll),
    (false, .enableReading), (false, .remove)]

/-- What the interest list, `channels_` and the channel itself have about an fd. -/
def views (s : PolledChannels Bool) (c : Bool) :
    Option (EventMask × Bool) × Option Bool × ChannelIndex × EventMask :=
  (s.poller.interest (twoFds.fd c), s.poller.channels_ (twoFds.fd c), (s.channel c).index_,
    (s.channel c).events_)

theorem movingRun_views_agree :
    (List.range 7).map (fun n =>
        (machine.run (new twoFds) (movingRun.take n)).map fun s => s.views false) =
      [some (none, none, .kNew, 0), some (some (3, false), some false, .kAdded, 3),
        some (some (7, false), some false, .kAdded, 7),
        some (some (7, false), some false, .kAdded, 7), some (none, some false, .kDeleted, 0),
        some (some (3, false), some false, .kAdded, 3), some (none, none, .kNew, 3)] ∧
    ∃ s, machine.run (new twoFds) movingRun = some s ∧
      (∀ fd mask c, s.poller.interest fd = some (mask, c) ↔
        twoFds.fd c = fd ∧ (s.channel c).index_ = .kAdded ∧ mask = (s.channel c).events_) ∧
      (∀ fd c, s.poller.channels_ fd = some c ↔
        twoFds.fd c = fd ∧ (s.channel c).index_ ≠ .kNew) ∧
      (∀ c, s.poller.hasChannel c (s.channel c) = true ↔ (s.channel c).index_ ≠ .kNew) ∧
      ∀ call ∈ s.calls, call.present = true ↔ call.operation ≠ .EPOLL_CTL_ADD :=
  ⟨by decide +kernel, views_agree twoFds movingRun⟩

end PolledChannels

end RainWebServer.Net
