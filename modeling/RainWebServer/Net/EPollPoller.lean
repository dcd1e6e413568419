import Mathlib.Logic.Function.Basic

/-!
# Channel and EPollPoller: Interest in an fd

Embeds `include/net/Channel.h`, `src/net/Channel.cc` and `src/net/EPollPoller.cc`.

A channel is the object of type `Ch` that the poller stores a pointer to; the kernel's
interest list maps an fd to the registered mask and pointer. `epoll_ctl` fails when it adds
an fd that is present, and when it modifies or deletes one that is absent; the first two end
in `LOG_FATAL`, which aborts the process and is a fault here, the last one is only logged.

## Main results

- `updateChannel_spec` : what `enableReading` .. `disableAll` do to a channel that agrees with
  the interest list
- `removeChannel_spec` : and what `remove` does
-/

namespace RainWebServer.Net

/-! ## §1 Masks -/

/-- An event mask, the bits of an `int`. -/
abbrev EventMask := BitVec 32

def EPOLLIN : EventMask := 0x001
def EPOLLPRI : EventMask := 0x002
def EPOLLOUT : EventMask := 0x004
def EPOLLERR : EventMask := 0x008
def EPOLLHUP : EventMask := 0x010

/-- The test `mask & bits` of a C condition. -/
def EventMask.has (mask bits : EventMask) : Bool := mask &&& bits ≠ 0

/-- `Channel::kNoneEvent`. -/
def kNoneEvent : EventMask := 0

/-- `Channel::kReadEvent`. -/
def kReadEvent : EventMask := EPOLLIN ||| EPOLLPRI

/-- `Channel::kWriteEvent`. -/
def kWriteEvent : EventMask := EPOLLOUT

/-! ## §2 Channel and poller -/

/-- The values of `index_`: `kNew`, `kAdded` and `kDeleted` of `EPollPoller.cc`. -/
inductive ChannelIndex where
  | kNew
  | kAdded
  | kDeleted
  deriving DecidableEq, Repr

/-- The members of `Channel`, without its callbacks and its loop. -/
structure Channel where
  fd_ : Int
  events_ : EventMask
  revents_ : EventMask
  index_ : ChannelIndex
  tied_ : Bool
  deriving DecidableEq, Repr

/-- The constructor. -/
def Channel.new (fd : Int) : Channel := ⟨fd, 0, 0, .kNew, false⟩

/-- `isNoneEvent`. -/
def Channel.isNoneEvent (channel : Channel) : Bool := channel.events_ = kNoneEvent

/-- `isWriting`. -/
def Channel.isWriting (channel : Channel) : Bool := channel.events_.has kWriteEvent

/-- `channels_` of the poller and the kernel's interest list behind `epollfd_`. -/
structure EPollPoller (Ch : Type) where
  channels_ : Int → Option Ch
  interest : Int → Option (EventMask × Ch)

/-- An operation of `epoll_ctl`. -/
inductive EpollCtl where
  | EPOLL_CTL_ADD
  | EPOLL_CTL_MOD
  | EPOLL_CTL_DEL
  deriving DecidableEq, Repr

namespace EPollPoller

variable {Ch : Type}

/-- The constructor: nothing is registered. -/
def new : EPollPoller Ch := ⟨fun _ => none, fun _ => none⟩

/-- Set the kernel's entry of an fd. -/
def setInterest (p : EPollPoller Ch) (fd : Int) (entry : Option (EventMask × Ch)) :
    EPollPoller Ch :=
  { p with interest := Function.update p.interest fd entry }

/-- Set the entry of an fd in `channels_`. -/
def setChannel (p : EPollPoller Ch) (fd : Int) (entry : Option Ch) : EPollPoller Ch :=
  { p with channels_ := Function.update p.channels_ fd entry }

@[simp] theorem interest_setInterest (p : EPollPoller Ch) (fd : Int)
    (entry : Option (EventMask × Ch)) : (p.setInterest fd entry).interest fd = entry :=
  Function.update_self _ _ _

@[simp] theorem channels_setInterest (p : EPollPoller Ch) (fd : Int)
    (entry : Option (EventMask × Ch)) : (p.setInterest fd entry).channels_ = p.channels_ := rfl

@[simp] theorem channels_setChannel (p : EPollPoller Ch) (fd : Int) (entry : Option Ch) :
    (p.setChannel fd entry).channels_ fd = entry :=
  Function.update_self _ _ _

@[simp] theorem interest_setChannel (p : EPollPoller Ch) (fd : Int) (entry : Option Ch) :
    (p.setChannel fd entry).interest = p.interest := rfl

/-- `update`: the call of `epoll_ctl` with its error paths. -/
def update (p : EPollPoller Ch) (operation : EpollCtl) (self : Ch) (channel : Channel) :
    Option (EPollPoller Ch) :=
  match operation, p.interest channel.fd_ with
  -- EEXIST and ENOENT: LOG_FATAL
  | .EPOLL_CTL_ADD, some _ => none
  | .EPOLL_CTL_MOD, none => none
  | .EPOLL_CTL_ADD, none => some (p.setInterest channel.fd_ (some (channel.events_, self)))
  | .EPOLL_CTL_MOD, some _ => some (p.setInterest channel.fd_ (some (channel.events_, self)))
  -- ENOENT: LOG_ERROR
  | .EPOLL_CTL_DEL, _ => some (p.setInterest channel.fd_ none)

/-- `updateChannel`. -/
def updateChannel (p : EPollPoller Ch) (self : Ch) (channel : Channel) :
    Option (EPollPoller Ch × Channel) :=
  match channel.index_ with
  | .kNew => do
    let p := p.setChannel channel.fd_ (some self)
    let channel := { channel with index_ := .kAdded }
    let p ← p.update .EPOLL_CTL_ADD self channel
    some (p, channel)
  | .kDeleted => do
    let channel := { channel with index_ := .kAdded }
    let p ← p.update .EPOLL_CTL_ADD self channel
    some (p, channel)
  | .kAdded =>
    if channel.isNoneEvent then do
      let p ← p.update .EPOLL_CTL_DEL self channel
      some (p, { channel with index_ := .kDeleted })
    else do
      let p ← p.update .EPOLL_CTL_MOD self channel
      some (p, channel)

/-- `removeChannel`. -/
def removeChannel (p : EPollPoller Ch) (self : Ch) (channel : Channel) :
    Option (EPollPoller Ch × Channel) := do
  let p := p.setChannel channel.fd_ none
  let p ← if channel.index_ = .kAdded then p.update .EPOLL_CTL_DEL self channel else some p
  some (p, { channel with index_ := .kNew })

/-! ## §3 A channel that agrees with the poller -/

/-- The kernel's entry that a channel should have. -/
def entryOf (self : Ch) (channel : Channel) : Option (EventMask × Ch) :=
  if channel.index_ = .kAdded then some (channel.events_, self) else none

/-- The entry of a channel in `channels_`. -/
def mappedOf (self : Ch) (channel : Channel) : Option Ch :=
  if channel.index_ = .kNew then none else some self

/-- The poller and the interest list hold exactly what the channel's `index_` says. -/
structure Agrees (p : EPollPoller Ch) (ptr : Ch) (channel : Channel) : Prop where
  interest_eq : p.interest channel.fd_ = entryOf ptr channel
  channels_eq : p.channels_ channel.fd_ = mappedOf ptr channel

/-- Two pollers hold the same about every fd but one. -/
structure SameExcept (p q : EPollPoller Ch) (fd : Int) : Prop where
  interest : ∀ fd', fd' ≠ fd → q.interest fd' = p.interest fd'
  channels : ∀ fd', fd' ≠ fd → q.channels_ fd' = p.channels_ fd'

theorem agrees_new (self : Ch) (fd : Int) : Agrees new self (Channel.new fd) := ⟨rfl, rfl⟩

theorem SameExcept.setInterest (p : EPollPoller Ch) (fd : Int) (entry : Option (EventMask × Ch)) :
    SameExcept p (p.setInterest fd entry) fd :=
  ⟨fun _ h => Function.update_of_ne h _ _, fun _ _ => rfl⟩

theorem SameExcept.setChannel (p : EPollPoller Ch) (fd : Int) (entry : Option Ch) :
    SameExcept p (p.setChannel fd entry) fd :=
  ⟨fun _ _ => rfl, fun _ h => Function.update_of_ne h _ _⟩

theorem SameExcept.trans {p q r : EPollPoller Ch} {fd : Int} (h₁ : SameExcept p q fd)
    (h₂ : SameExcept q r fd) : SameExcept p r fd :=
  ⟨fun fd' h => (h₂.interest fd' h).trans (h₁.interest fd' h),
    fun fd' h => (h₂.channels fd' h).trans (h₁.channels fd' h)⟩

/-- An agreeing channel keeps agreeing when another fd's entries change. -/
theorem Agrees.frame {p q : EPollPoller Ch} {self : Ch} {channel : Channel} {fd : Int}
    (h : Agrees p self channel) (hsame : SameExcept p q fd) (hfd : channel.fd_ ≠ fd) :
    Agrees q self channel :=
  ⟨(hsame.interest _ hfd).trans h.interest_eq, (hsame.channels _ hfd).trans h.channels_eq⟩

/-- The index of a channel after `updateChannel`. -/
def updatedIndex (index : ChannelIndex) (events : EventMask) : ChannelIndex :=
  if index = .kAdded ∧ events = kNoneEvent then .kDeleted else .kAdded

/-- **`updateChannel` on a channel that agreed before its mask was set**: no `epoll_ctl`
    fails, the channel agrees again, and no other fd is touched. -/
theorem updateChannel_spec {p : EPollPoller Ch} {self : Ch} {channel : Channel}
    (h : Agrees p self channel) (events : EventMask) :
    ∃ q, p.updateChannel self { channel with events_ := events } =
        some (q, { channel with events_ := events
                                index_ := updatedIndex channel.index_ events }) ∧
      Agrees q self { channel with events_ := events
                                   index_ := updatedIndex channel.index_ events } ∧
      SameExcept p q channel.fd_ := by
  obtain ⟨hinterest, hchannels⟩ := h
  cases hindex : channel.index_ with
  | kNew =>
    simp only [entryOf, mappedOf, hindex] at hinterest hchannels
    -- a new channel is put into the map first, then added to epoll
    have hadd : (p.setChannel channel.fd_ (some self)).interest channel.fd_ = none := hinterest
    refine ⟨(p.setChannel channel.fd_ (some self)).setInterest channel.fd_ (some (events, self)),
      ?_, ⟨?_, ?_⟩, ?_⟩
    · simp only [updateChannel, update, hadd]
      rfl
    · exact interest_setInterest _ _ _
    · exact channels_setChannel _ _ _
    · exact (SameExcept.setChannel p _ _).trans (SameExcept.setInterest _ _ _)
  | kDeleted =>
    simp only [entryOf, mappedOf, hindex] at hinterest hchannels
    -- a deleted one is in the map still
    refine ⟨p.setInterest channel.fd_ (some (events, self)), ?_, ⟨?_, ?_⟩, ?_⟩
    · have hadd : p.interest channel.fd_ = none := hinterest
      simp only [updateChannel, update, hadd]
      rfl
    · exact interest_setInterest _ _ _
    · exact hchannels
    · exact SameExcept.setInterest p _ _
  | kAdded =>
    simp only [entryOf, mappedOf, hindex] at hinterest hchannels
    -- an added one is modified, or deleted if no event is left
    by_cases hnone : events = kNoneEvent
    · refine ⟨p.setInterest channel.fd_ none, ?_, ⟨?_, ?_⟩, ?_⟩
      · simp [updateChannel, update, Channel.isNoneEvent, hnone, updatedIndex]
      · simp [entryOf, updatedIndex, hnone]
      · simpa [mappedOf, updatedIndex, hnone] using hchannels
      · exact SameExcept.setInterest p _ _
    · refine ⟨p.setInterest channel.fd_ (some (events, self)), ?_, ⟨?_, ?_⟩, ?_⟩
      · simp [updateChannel, update, Channel.isNoneEvent, hnone, updatedIndex, hinterest]
      · simp [entryOf, updatedIndex, hnone]
      · simpa [mappedOf, updatedIndex, hnone] using hchannels
      · exact SameExcept.setInterest p _ _

/-- **`removeChannel` on a channel that agrees**: afterwards its fd is nowhere. -/
theorem removeChannel_spec {p : EPollPoller Ch} {self : Ch} {channel : Channel}
    (h : Agrees p self channel) :
    ∃ q, p.removeChannel self channel = some (q, { channel with index_ := .kNew }) ∧
      Agrees q self { channel with index_ := .kNew } ∧ SameExcept p q channel.fd_ := by
  obtain ⟨hinterest, -⟩ := h
  by_cases hindex : channel.index_ = .kAdded
  · refine ⟨(p.setChannel channel.fd_ none).setInterest channel.fd_ none, ?_, ⟨?_, ?_⟩, ?_⟩
    · simp [removeChannel, hindex, update]
    · exact interest_setInterest _ _ _
    · exact channels_setChannel _ _ _
    · exact (SameExcept.setChannel p _ _).trans (SameExcept.setInterest _ _ _)
  · refine ⟨p.setChannel channel.fd_ none, ?_, ⟨?_, ?_⟩, ?_⟩
    · simp [removeChannel, hindex]
    · simpa [entryOf, hindex] using hinterest
    · exact channels_setChannel _ _ _
    · exact SameExcept.setChannel p _ _

end EPollPoller

end RainWebServer.Net
