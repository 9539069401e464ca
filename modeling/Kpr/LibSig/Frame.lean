import Kpr.LibSig.Handlers

open Machine

namespace LibSig

-- The registers which an exception message contains.
structure ExcRegs where
  gs     : Nat
  fs     : Nat
  edi    : Nat
  esi    : Nat
  ebp    : Nat
  pfa    : Nat
  ebx    : Nat
  edx    : Nat
  ecx    : Nat
  eax    : Nat
  trapno : Nat
  err    : Nat
  ip     : Nat
  flags  : Nat
  sp     : Nat
  deriving DecidableEq

-- The elements of `gregs`, and `cr2`.
inductive Slot
  | REG_GS | REG_FS | REG_ES | REG_DS
  | REG_EDI | REG_ESI | REG_EBP | REG_ESP | REG_EBX | REG_EDX | REG_ECX | REG_EAX
  | REG_TRAPNO | REG_ERR | REG_EIP | REG_CS | REG_EFL | REG_UESP | REG_SS
  | cr2
  deriving DecidableEq

-- Where the words of `ucontext_t` are. This is up to the C library.
structure Layout where
  size    : Nat
  offset  : Slot → Nat
  inj     : ∀ {a b}, offset a = offset b → a = b
  aligned : ∀ a, offset a % 4 = 0
  within  : ∀ a, offset a + 4 ≤ size

-- The segment registers of the thread which handles the exceptions.
structure Selectors where
  es : Nat
  ds : Nat
  cs : Nat
  ss : Nat

-- What does not change while signals are delivered. `trap` is the address of
-- `libc_be_sig_return_trap`, `rangeOk` tells what the region map says, and `shared` whether
-- `sa_handler` and `sa_sigaction` share their storage.
structure Config where
  layout    : Layout
  selectors : Selectors
  rangeOk   : Nat → Nat → Bool
  trap      : Nat
  shared    : Bool

namespace Config

variable (c : Config) (u : ExcRegs) (ucf : Nat) (mem : Memory)

def slot (a : Slot) : Nat :=
  Word.add ucf (c.layout.offset a)

-- The assignments of `fill_ucontext_frame`.
def assignments : List (Slot × Nat) :=
  [(.REG_GS, u.gs),
   (.REG_FS, u.fs),
   (.REG_ES, c.selectors.es), -- we do not have other values
   (.REG_DS, c.selectors.ds),
   (.REG_EDI, u.edi),
   (.REG_ESI, u.esi),
   (.REG_EBP, u.ebp),
   (.REG_ESP, u.sp),
   (.REG_EBX, u.ebx),
   (.REG_EDX, u.edx),
   (.REG_ECX, u.ecx),
   (.REG_EAX, u.eax),
   (.REG_TRAPNO, u.trapno),
   (.REG_ERR, u.err),
   (.cr2, u.pfa),
   (.REG_EIP, u.ip),
   (.REG_CS, c.selectors.cs),
   (.REG_EFL, u.flags),
   (.REG_UESP, u.sp),
   (.REG_SS, c.selectors.ss)]

def fillUcontextFrame : Memory :=
  (c.assignments u).foldl (fun mem (a, v) => Function.update mem (c.slot ucf a) v) mem

def fillUtcbExc : ExcRegs :=
  let greg a := mem (c.slot ucf a)
  { u with
    gs     := greg .REG_GS
    fs     := greg .REG_FS
    edi    := greg .REG_EDI
    esi    := greg .REG_ESI
    ebp    := greg .REG_EBP
    ebx    := greg .REG_EBX
    edx    := greg .REG_EDX
    ecx    := greg .REG_ECX
    eax    := greg .REG_EAX
    trapno := greg .REG_TRAPNO
    err    := greg .REG_ERR
    sp     := greg .REG_ESP
    ip     := greg .REG_EIP
    flags  := greg .REG_EFL }

-- put state + pointer to it on stack
def setupSigFrame (signum : Nat) : Option (ExcRegs × Memory) :=
  let ucf := Word.sub u.sp c.layout.size
  -- Check if memory access is fine
  if !c.rangeOk ucf c.layout.size then none
  else
    let mem := c.fillUcontextFrame u ucf mem
    let sp  := Word.sub ucf 4
    let mem := Function.update mem sp ucf
    -- siginfo_t pointer, we do not have one right currently
    let sp  := Word.sub sp 4
    let mem := Function.update mem sp 0
    -- both types get the signum as the first argument
    let sp  := Word.sub sp 4
    let mem := Function.update mem sp signum
    let sp  := Word.sub sp 4
    let mem := Function.update mem sp c.trap
    some ({ u with sp }, mem)

-- The reply to an exception, and the memory behind it. Without a reply, the thread is not continued.
def handleException (sigactions : Sigactions) : Option (ExcRegs × Memory) :=
  if u.trapno = 0xff then
    let handler := sigactions.getHandler SIGALRM
    if handler = 0 then none
    else do
      let (u, mem) ← c.setupSigFrame u mem SIGALRM
      return ({ u with ip := handler }, mem)
  else if u.ip = c.trap then
    -- sig-return
    let ucf := Word.add u.sp (4 * 3)
    if !c.rangeOk ucf c.layout.size then none
    else some (c.fillUtcbExc u ucf mem, mem)
  else
    let handler := sigactions.getHandler SIGSEGV
    if handler = 0 then none
    else do
      let (u, mem) ← c.setupSigFrame u mem SIGSEGV
      return ({ u with ip := handler }, mem)

end Config
end LibSig
