import Kpr.Lib.Machine

open Machine

-- What the kernel side answers to one sequence of `cap_alloc.alloc`, `mem_alloc()->alloc` and
-- `rm()->attach`, the only way in which this code obtains memory.
structure DataspaceReply where
  capValid  : Bool
  allocErr  : Int
  attachErr : Int
  addr      : Nat

namespace DataspaceReply

-- The three failure exits are taken in this order, each of them returns `NULL`.
def result (r : DataspaceReply) : Nat :=
  if !r.capValid then NULL
  else if r.allocErr ≠ 0 then NULL
  else if r.attachErr ≠ 0 then NULL
  else r.addr

def granted (a : Nat) : DataspaceReply where
  capValid  := true
  allocErr  := 0
  attachErr := 0
  addr      := a

end DataspaceReply
