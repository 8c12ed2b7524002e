import StackLisp.Value.Basic

/-!
# Scopes of exits

What the compiler knows about the blocks and tagbodies around the form it is
compiling, the innermost first.

A call in tail position may drop the exits of the function it stands in, unless
a closure made there returns into one of the blocks that the call would leave.
Whether one does is known only when those blocks are closed, so such a call is
compiled as an ordinary one and noted as a *pending tail call*, to be changed
when the last of the blocks it leaves is closed.
-/

namespace StackLisp

/-- A block whose body is being compiled. -/
structure BlockScope where
  name : Value
  /-- The number of functions around the block. -/
  functionDepth : Nat
  /-- Whether a function inside the block returns from it. -/
  captured : Bool := false
  /-- The pending tail calls that leave the block, the latest first. -/
  tailCalls : List Nat := []
deriving DecidableEq, Repr

/-- A tagbody whose forms are being compiled. -/
structure TagScope where
  id : Value
  tags : List Value
deriving DecidableEq, Repr

/-- A call that becomes a tail call if none of the blocks it leaves is captured. -/
structure PendingTail where
  /-- The pair that holds the call's opcode. -/
  pair : PairId
  /-- How many of the blocks it leaves are still open. -/
  openScopes : Nat
  /-- Whether one of those closed was captured. -/
  blocked : Bool := false
deriving DecidableEq, Repr

/-- Closes one of the blocks that a pending tail call leaves. -/
def PendingTail.close (p : PendingTail) (captured : Bool) : PendingTail :=
  { p with blocked := p.blocked || captured, openScopes := p.openScopes - 1 }

/-- The state of a compilation. -/
structure Scopes where
  blocks : List BlockScope := []
  tagbodies : List TagScope := []
  pendingTails : Array PendingTail := #[]
  /-- The number of functions around the form. -/
  functionDepth : Nat := 0
  /-- Warnings so far, the oldest first. -/
  warnings : Array String := #[]
deriving Inhabited

namespace Scopes

/-- Marks the innermost block of a name as the target of a return from
    `depth` functions deep. -/
def capture (name : Value) (depth : Nat) : List BlockScope → Option (List BlockScope)
  | [] => none
  | b :: bs =>
    if b.name = name then
      some ({ b with captured := b.captured || b.functionDepth < depth } :: bs)
    else
      (capture name depth bs).map (b :: ·)

/-- Notes a return from a block; nothing if no block of the name is in scope. -/
def targetBlock (s : Scopes) (name : Value) : Option Scopes :=
  (capture name s.functionDepth s.blocks).map fun blocks => { s with blocks }

/-- The innermost tagbody with a tag. -/
def targetTag (s : Scopes) (tag : Value) : Option Value :=
  (s.tagbodies.find? (·.tags.contains tag)).map (·.id)

/-- Notes a call that leaves the `crossed` innermost blocks. -/
def addPendingTail (s : Scopes) (pair : PairId) (crossed : Nat) : Scopes :=
  let index := s.pendingTails.size
  let note := fun b : BlockScope => { b with tailCalls := index :: b.tailCalls }
  { s with
    pendingTails := s.pendingTails.push { pair, openScopes := crossed }
    blocks := (s.blocks.take crossed).map note ++ s.blocks.drop crossed }

/-- Forgets the scopes, but neither the warnings nor the pending tail calls. -/
def clear (s : Scopes) : Scopes :=
  { s with blocks := [], tagbodies := [], functionDepth := 0 }

end Scopes

end StackLisp
