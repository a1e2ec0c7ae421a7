import Limnx.Process

/-! # Capability tokens (`ipc/cap_token.c`)

All calls take `token_lock`; `cap_token_delegate` takes it three times: to look at the parent, in `cap_token_create`,
and to write the link. A step is one such section, and a delegation in progress is part of the state. How each token
came to be and which revocations succeeded is history. -/

namespace Limnx

def maxTokens : Nat := 32
def tokenPathMax : Nat := 64
def tokenMaxDepth : BitVec 8 := 4

/-- `cap_token_t`. A resource is the string up to its terminator. -/
structure CapToken where
  id : U32 := 0
  ownerPid : Nat := 0
  targetPid : Nat := 0
  perms : U32 := 0
  resource : CStr := []
  parentId : U32 := 0
  depth : BitVec 8 := 0
  used : Bool := false
deriving DecidableEq

/-- A call of `cap_token_create` that is not part of a delegation: a process with the capability word `caps`
    creates a token. -/
structure RootBirth where
  ownerPid : Nat
  caps : U32
  perms : U32
  resource : CStr
deriving DecidableEq

inductive Birth
  | root (r : RootBirth)
  | delegated (parent : U32)
deriving DecidableEq

/-- A `cap_token_delegate` call after its first section: what it copied from the parent, and the number of the new token
    once there is one. -/
structure Delegation where
  callerPid : Nat
  targetPid : Nat
  perms : U32
  resource : CStr
  parentTokId : U32
  newDepth : BitVec 8
  newId : Option U32 := none
deriving DecidableEq

structure TokenSys where
  tokens : List CapToken := List.replicate maxTokens {}
  nextTokenId : U32 := 1
  calls : List Delegation := []
  births : U32 → Option Birth := fun _ => none
  revoked : List U32 := []

def prefixMatch (pre path : CStr) : Bool := pre.isPrefixOf path

def freshToken (id : U32) (ownerPid : Nat) (perms : U32) (targetPid : Nat) (resource : CStr) : CapToken :=
  { used := true, id := id, ownerPid := ownerPid, targetPid := targetPid, perms := perms, parentId := 0, depth := 0,
    resource := resource.take (tokenPathMax - 1) }

variable (s : TokenSys)

/-- The locked part of `cap_token_create`, for permissions already checked; `none` when the table is full. -/
def tokenInsert (ownerPid : Nat) (perms : U32) (targetPid : Nat) (resource : CStr) (birth : Birth) : Option TokenSys :=
  (s.tokens.findIdx? (!·.used)).map fun i =>
    { s with
      tokens := s.tokens.set i (freshToken s.nextTokenId ownerPid perms targetPid resource)
      nextTokenId := s.nextTokenId + 1
      births := fun id => if id = s.nextTokenId then some birth else s.births id }

/-- The number of the new token as the `int` that is returned. -/
def capTokenCreate (ownerPid : Nat) (ownerCaps perms : U32) (targetPid : Nat) (resource : CStr) : Int × TokenSys :=
  if perms &&& ~~~ownerCaps ≠ 0 then (-EPERM, s)
  else
    match tokenInsert s ownerPid perms targetPid resource
        (.root ⟨ownerPid, ownerCaps, perms, resource.take (tokenPathMax - 1)⟩) with
    | some s' => (s.nextTokenId.toInt, s')
    | none => (-ENOMEM, s)

variable (ts : List CapToken)

def findToken (id : U32) : Option CapToken := ts.find? fun x => x.used && x.id == id

/-- The first section of `cap_token_delegate`; `resource` is empty for a null pointer. -/
def delegateBegin (parentId : U32) (callerPid targetPid : Nat) (perms : U32)
    (resource : CStr) : Except Int Delegation :=
  match findToken s.tokens parentId with
  | none => .error (-ENOENT)
  | some parent =>
    if parent.targetPid ≠ 0 ∧ parent.targetPid ≠ callerPid then .error (-EPERM)
    else
      let perms := if perms = 0 then parent.perms else perms
      if perms &&& ~~~parent.perms ≠ 0 then .error (-EPERM)
      else if resource ≠ [] ∧ parent.resource ≠ [] ∧ !prefixMatch parent.resource resource then .error (-EPERM)
      else if parent.depth ≥ tokenMaxDepth then .error (-EPERM)
      else
        .ok { callerPid := callerPid, targetPid := targetPid, perms := perms,
              resource := if resource ≠ [] then resource else parent.resource,
              parentTokId := parent.id, newDepth := parent.depth + 1 }

/-- The second section, in `cap_token_create`. The call goes on only if the number is positive as an `int`. -/
def delegateCreate (i : Nat) : TokenSys :=
  match s.calls[i]? with
  | some d =>
    if d.newId.isSome then s
    else
      match tokenInsert s d.callerPid d.perms d.targetPid d.resource (.delegated d.parentTokId) with
      | none => { s with calls := s.calls.eraseIdx i }
      | some s' =>
        if s.nextTokenId.toInt > 0 then
          { s' with calls := s.calls.set i { d with newId := some s.nextTokenId } }
        else { s' with calls := s.calls.eraseIdx i }
  | none => s

def CapToken.linkTo (x : CapToken) (d : Delegation) : CapToken :=
  { x with parentId := d.parentTokId, depth := d.newDepth }

def linkTokens (d : Delegation) (newId : U32) : List CapToken :=
  match ts.findIdx? (fun x => x.used && x.id == newId) with
  | some j => ts.modify j (·.linkTo d)
  | none => ts

def delegateLink (i : Nat) : TokenSys :=
  match s.calls[i]? with
  | some d =>
    match d.newId with
    | none => s
    | some newId => { s with tokens := linkTokens s.tokens d newId, calls := s.calls.eraseIdx i }
  | none => s

def clearToken (id : U32) (ts : List CapToken) : List CapToken :=
  match ts.findIdx? (fun x => x.used && x.id == id) with
  | some i => ts.modify i fun x => { x with used := false }
  | none => ts

def revokeVisit (revoke : U32 → List CapToken → List CapToken) (id : U32)
    (acc : List CapToken × Bool) (i : Nat) : List CapToken × Bool :=
  match acc.1[i]? with
  | some x => if x.used && x.parentId == id then (revoke x.id acc.1, true) else acc
  | none => acc

def revokeScan (revoke : U32 → List CapToken → List CapToken) (id : U32) (ts : List CapToken) : List CapToken × Bool :=
  (List.range maxTokens).foldl (revokeVisit revoke id) (ts, false)

def revokePasses (revoke : U32 → List CapToken → List CapToken) (id : U32) : Nat → List CapToken → List CapToken
  | 0, ts => ts
  | n + 1, ts =>
    let (ts', found) := revokeScan revoke id ts
    if found then revokePasses revoke id n ts' else ts'

/-- `revoke_cascade_locked`. The first argument bounds the depth; each level has cleared a token, so the size of the
    table is enough (`alive_revokeCascade`). -/
def revokeCascadeLocked : Nat → U32 → List CapToken → List CapToken
  | 0, _, ts => ts
  | fuel + 1, id, ts => revokePasses (revokeCascadeLocked fuel) id maxTokens (clearToken id ts)

def capTokenRevoke (tokenId : U32) (callerPid : Nat) : Int × TokenSys :=
  match findToken s.tokens tokenId with
  | none => (-ENOENT, s)
  | some x =>
    if x.ownerPid ≠ callerPid then (-EPERM, s)
    else
      (0, { s with tokens := revokeCascadeLocked maxTokens tokenId s.tokens, revoked := tokenId :: s.revoked })

def CapToken.concerns (pid : Nat) (x : CapToken) : Bool := x.ownerPid == pid || x.targetPid == pid

def capTokenCleanupPid (pid : Nat) : TokenSys :=
  { s with tokens := s.tokens.map fun x => if x.used && x.concerns pid then { x with used := false } else x }

def CapToken.grants (pid : Nat) (neededCap : U32) (resource : Option CStr) (x : CapToken) : Bool :=
  x.used && (x.targetPid == 0 || x.targetPid == pid) && x.perms &&& neededCap != 0 &&
    resource.all fun r => x.resource.isEmpty || prefixMatch x.resource r

def grantingToken (pid : Nat) (neededCap : U32) (resource : Option CStr) : Option CapToken :=
  ts.find? (·.grants pid neededCap resource)

def capTokenCheck (pid : Nat) (neededCap : U32) (resource : Option CStr) : Bool :=
  (grantingToken ts pid neededCap resource).isSome

/-- The sections that can run; a number stands for the delegation in progress that goes on. -/
inductive TokenOp
  | create (ownerPid : Nat) (ownerCaps perms : U32) (targetPid : Nat) (resource : CStr)
  | delegateBegin (parentId : U32) (callerPid targetPid : Nat) (perms : U32) (resource : CStr)
  | delegateCreate (i : Nat)
  | delegateLink (i : Nat)
  | revoke (tokenId : U32) (callerPid : Nat)
  | cleanup (pid : Nat)
deriving DecidableEq

def TokenSys.step : TokenOp → TokenSys
  | .create owner caps perms target resource => (capTokenCreate s owner caps perms target resource).2
  | .delegateBegin parentId caller target perms resource =>
    match Limnx.delegateBegin s parentId caller target perms resource with
    | .ok d => { s with calls := d :: s.calls }
    | .error _ => s
  | .delegateCreate i => Limnx.delegateCreate s i
  | .delegateLink i => Limnx.delegateLink s i
  | .revoke id caller => (capTokenRevoke s id caller).2
  | .cleanup pid => capTokenCleanupPid s pid

end Limnx
