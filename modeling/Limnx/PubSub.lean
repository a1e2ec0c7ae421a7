import Limnx.TaskGraph

/-! # Topics (`ipc/pubsub.c`)

Each section under `pubsub_lock` is one step. `pubsub_subscribe` and `pubsub_publish` let go of it to check a foreign
namespace: the thread is then at `checking`, or at `cleared` when the check, whose outcome is an input, has passed. -/

namespace Limnx

def maxTopics : Nat := 16
def maxSubscribers : Nat := 8
def topicNameMax : Nat := 32
def topicMsgMax : Nat := 256
def topicQueueSlots : Nat := 4

def capXnsPubsub : U32 := 1#32 <<< 10

/-- `check_xns_access`, with the tokens there are. -/
def checkXnsAccess (tokens : List CapToken) (topicNs callerNs : U32) (callerPid : Nat) (callerCaps : U32) : Bool :=
  callerNs == topicNs || topicNs == 0 || callerCaps &&& capXnsPubsub != 0 ||
    capTokenCheck tokens callerPid capXnsPubsub (some (nsResource topicNs))

/-- `topic_msg_t`. The length is that of the data. -/
structure TopicMsg where
  publisherPid : Nat := 0
  data : List UInt8 := []
deriving DecidableEq

def TopicMsg.cut (m : TopicMsg) (maxLen : Nat) : TopicMsg :=
  { publisherPid := m.publisherPid, data := m.data.take (min m.data.length maxLen) }

structure TopicSub where
  pid : Nat := 0
  nsId : U32 := 0
  msgs : Nat → TopicMsg := fun _ => {}
  head : Nat := 0
  tail : Nat := 0
  count : Nat := 0
  used : Bool := false

/-- `topic_t`. The name is a string without its final zero byte. -/
structure Topic where
  name : CStr := []
  ownerPid : Nat := 0
  nsId : U32 := 0
  subs : Nat → TopicSub := fun _ => {}
  used : Bool := false

namespace TopicSub

def deliver (sub : TopicSub) (m : TopicMsg) : TopicSub :=
  let sub := if topicQueueSlots ≤ sub.count then
      { sub with head := (sub.head + 1) % topicQueueSlots, count := sub.count - 1 }
    else sub
  { sub with
    msgs := Function.update sub.msgs sub.tail m
    tail := (sub.tail + 1) % topicQueueSlots
    count := sub.count + 1 }

def take (sub : TopicSub) : TopicSub :=
  { sub with head := (sub.head + 1) % topicQueueSlots, count := sub.count - 1 }

end TopicSub

namespace Topic
variable (tp : Topic)

def findSub (pid : Nat) : Option Nat :=
  (List.range maxSubscribers).find? fun i => (tp.subs i).used && (tp.subs i).pid == pid

def freeSub : Option Nat := (List.range maxSubscribers).find? fun i => !(tp.subs i).used

def setSub (i : Nat) (sub : TopicSub) : Topic := { tp with subs := Function.update tp.subs i sub }

def deliver (m : TopicMsg) : Topic :=
  { tp with subs := fun i => if (tp.subs i).used then (tp.subs i).deliver m else tp.subs i }

def subscribers : List Nat := (List.range maxSubscribers).filter fun i => (tp.subs i).used

end Topic

/-- The calls that make a check of the namespace: `pubsub_subscribe` and `pubsub_publish`. -/
inductive PubCall
  | subscribe (t : Nat) (ns caps : U32)
  | publish (t : Nat) (ns caps : U32) (data : List UInt8)
deriving DecidableEq

namespace PubCall

def topic : PubCall → Nat
  | .subscribe t .. | .publish t .. => t

def ns : PubCall → U32
  | .subscribe _ ns _ | .publish _ ns _ _ => ns

def caps : PubCall → U32
  | .subscribe _ _ caps | .publish _ _ caps _ => caps

def data : PubCall → List UInt8
  | .subscribe .. => []
  | .publish _ _ _ data => data

end PubCall

/-- Where the thread of a process is. `ns` is the namespace that the first section read; `token`: a token was found for
    it. -/
inductive PubPc
  | idle
  | checking (c : PubCall) (ns : U32)
  | cleared (c : PubCall) (ns : U32) (token : Bool)
deriving DecidableEq

/-- A process enters a topic: it becomes a subscriber, or its message is put into a queue. `token` is the namespace for
    which a token was found during the call. -/
structure PubEntry where
  pid : Nat
  topicNs : U32
  callerNs : U32
  caps : U32
  token : Option U32
deriving DecidableEq

/-- What is seen of a step: who enters a topic, what is published to which topic, what a process receives from which
    topic (`none` is `-EAGAIN`), and the value returned. -/
structure PubOut where
  enters : Option PubEntry := none
  published : Option (Nat × TopicMsg) := none
  received : Option (Nat × Nat × Option TopicMsg) := none
  returns : Option Int := none

structure PubWorld where
  topics : Nat → Topic := fun _ => {}
  pcs : Nat → PubPc := fun _ => .idle

namespace PubWorld
variable (w : PubWorld)

def setTopic (t : Nat) (tp : Topic) : PubWorld := { w with topics := Function.update w.topics t tp }

def goto (p : Nat) (pc : PubPc) : PubWorld := { w with pcs := Function.update w.pcs p pc }

def pubsubTopicCreate (name : CStr) (nsId : U32) (ownerPid : Nat) : Int × PubWorld :=
  if (List.range maxTopics).any fun i =>
      (w.topics i).used && (w.topics i).nsId == nsId && (w.topics i).name == name then (-EEXIST, w)
  else
    match (List.range maxTopics).find? fun i => !(w.topics i).used with
    | none => (-ENOMEM, w)
    | some i =>
      let subs := fun s =>
        { (w.topics i).subs s with used := false, head := 0, tail := 0, count := 0 }
      (i, w.setTopic i { name := name.take (topicNameMax - 1), ownerPid, nsId, subs, used := true })

def commit (p : Nat) (c : PubCall) (token : Option U32) : PubOut × PubWorld :=
  let tp := w.topics c.topic
  let entry : PubEntry := { pid := p, topicNs := tp.nsId, callerNs := c.ns, caps := c.caps, token }
  match c with
  | .subscribe t ns _ =>
    if (tp.findSub p).isSome then ({ returns := some 0 }, w)
    else
      match tp.freeSub with
      | none => ({ returns := some (-ENOMEM) }, w)
      | some i =>
        let sub := { tp.subs i with used := true, pid := p, nsId := ns, head := 0, tail := 0, count := 0 }
        ({ enters := some entry, returns := some 0 }, w.setTopic t (tp.setSub i sub))
  | .publish t _ _ data =>
    let m : TopicMsg := { publisherPid := p, data }
    ({ enters := if tp.subscribers = [] then none else some entry
       published := some (t, m)
       returns := some tp.subscribers.length }, w.setTopic t (tp.deliver m))

def call (p : Nat) (c : PubCall) : PubOut × PubWorld :=
  if maxTopics ≤ c.topic then ({ returns := some (-EINVAL) }, w)
  else if topicMsgMax < c.data.length then ({ returns := some (-EMSGSIZE) }, w)
  else
    let tp := w.topics c.topic
    if !tp.used then ({ returns := some (-ENOENT) }, w)
    else if c.ns ≠ tp.nsId ∧ tp.nsId ≠ 0 then ({}, w.goto p (.checking c tp.nsId))
    else w.commit p c none

/-- `check_xns_access`, made without the lock. `token` is the answer of `cap_token_check` for `ns`. -/
def check (p : Nat) (token : Bool) : PubOut × PubWorld :=
  match w.pcs p with
  | .checking c ns =>
    if c.caps &&& capXnsPubsub ≠ 0 then ({}, w.goto p (.cleared c ns false))
    else if token then ({}, w.goto p (.cleared c ns true))
    else ({ returns := some (-EPERM) }, w.goto p .idle)
  | _ => ({}, w)

def resume (p : Nat) : PubOut × PubWorld :=
  match w.pcs p with
  | .cleared c ns token =>
    if !(w.topics c.topic).used then ({ returns := some (-ENOENT) }, w.goto p .idle)
    else
      let r := w.commit p c (if token then some ns else none)
      (r.1, r.2.goto p .idle)
  | _ => ({}, w)

def pubsubRecv (t pid maxLen : Nat) : PubOut × PubWorld :=
  if maxTopics ≤ t then ({ returns := some (-EINVAL) }, w)
  else
    let tp := w.topics t
    if !tp.used then ({ returns := some (-ENOENT) }, w)
    else
      match tp.findSub pid with
      | none => ({ returns := some (-ENOENT) }, w)
      | some i =>
        let sub := tp.subs i
        if sub.count = 0 then ({ received := some (t, pid, none), returns := some (-EAGAIN) }, w)
        else
          let m := (sub.msgs sub.head).cut maxLen
          ({ received := some (t, pid, some m), returns := some m.data.length }, w.setTopic t (tp.setSub i sub.take))

def pubsubCleanupPid (pid : Nat) : PubWorld :=
  { w with topics := fun t =>
      let tp := w.topics t
      if tp.used then
        { tp with
          subs := fun i => if (tp.subs i).used && (tp.subs i).pid == pid then { tp.subs i with used := false } else tp.subs i
          used := tp.ownerPid != pid }
      else tp }

end PubWorld

inductive PubStep
  | create (p : Nat) (name : CStr) (ns : U32)
  | call (p : Nat) (c : PubCall)
  | check (p : Nat) (token : Bool)
  | resume (p : Nat)
  | recv (p t maxLen : Nat)
  | cleanup (p : Nat)
deriving DecidableEq

namespace PubWorld

/-- One step. A process inside a call makes no other one. -/
def react (w : PubWorld) : PubStep → PubOut × PubWorld
  | .create p name ns =>
    if w.pcs p = .idle then
      let r := w.pubsubTopicCreate name ns p
      ({ returns := some r.1 }, r.2)
    else ({}, w)
  | .call p c => if w.pcs p = .idle then w.call p c else ({}, w)
  | .check p token => w.check p token
  | .resume p => w.resume p
  | .recv p t maxLen => if w.pcs p = .idle then w.pubsubRecv t p maxLen else ({}, w)
  | .cleanup p => ({}, w.pubsubCleanupPid p)

def step (w : PubWorld) (op : PubStep) : PubWorld := (w.react op).2

end PubWorld

end Limnx
