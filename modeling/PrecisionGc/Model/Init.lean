import PrecisionGc.Model.Collect

/-!
# Initialisation

`gc_init` reads the base of the stack from `/proc/self/stat`. The buffer is the list of the bytes
that `read` has stored, so `file_length` is its length; a look at any other byte of `stat_buf` is a
fault. The loops run on fuel.
-/

namespace PrecisionGc

/-- `STAT_SKIP` -/
def statSkip : Nat := 27

/-- `STAT_BUF_SIZE` -/
def statBufSize : Nat := 4096

/-- `isspace`, in the C locale. -/
def isspace (c : UInt8) : Bool := c == 32 || (9 ≤ c && c ≤ 13)

def isdigit (c : UInt8) : Bool := 48 ≤ c && c ≤ 57

/-- The number with these digits. -/
def decimal (digits : List UInt8) : Nat := digits.foldl (fun n c => 10 * n + (c.toNat - 48)) 0

/-- `strtoull(s, NULL, 10)` -/
def strtoull (s : List UInt8) : Nat :=
  let s := s.dropWhile isspace
  let negative := s.head? == some 45
  let s := if s.head? == some 43 || s.head? == some 45 then s.tail else s
  let n := decimal (s.takeWhile isdigit)
  if 2 ^ 64 ≤ n then 2 ^ 64 - 1 else if negative then (2 ^ 64 - n) % 2 ^ 64 else n

variable (statBuf : List UInt8)

/-- `stat_buf[i]` -/
def statByte (i : Nat) : Except Fault UInt8 :=
  match statBuf[i]? with
  | some c => .ok c
  | none => .error .wild

/-- `while (buf_offset < file_length && p(stat_buf[buf_offset++])) {}`: the byte that stops the loop
is passed too. -/
def skipPast (p : UInt8 → Bool) : Nat → Nat → Except Fault Nat
  | 0, _ => throw .fuel
  | fuel + 1, bufOffset =>
    if bufOffset < statBuf.length then do
      if p (← statByte statBuf bufOffset) then skipPast p fuel (bufOffset + 1)
      else return bufOffset + 1
    else return bufOffset

/-- The first index from `i` on, below `file_length`, where `p` fails: the loop that skips spaces,
and the one that looks for the end of the number. -/
def scanWhile (p : UInt8 → Bool) : Nat → Nat → Except Fault Nat
  | 0, _ => throw .fuel
  | fuel + 1, i =>
    if i < statBuf.length then do
      if p (← statByte statBuf i) then scanWhile p fuel (i + 1) else return i
    else return i

/-- One round of the loop that skips the fields in front of startstack. -/
def skipField (fuel bufOffset : Nat) : Except Fault Nat := do
  let bufOffset ← skipPast statBuf isspace fuel bufOffset
  skipPast statBuf (!isspace ·) fuel bufOffset

/-- The value of `stack_base`: the number is cut off by a NUL where it ends. -/
def parseStackBase (fuel : Nat) : Except Fault Nat := do
  let bufOffset ← (List.range statSkip).foldlM (fun bufOffset _ =>
    skipField statBuf fuel bufOffset) 0
  let bufOffset ← scanWhile statBuf isspace fuel bufOffset
  let stop ← scanWhile statBuf isdigit fuel bufOffset
  if statBuf.length ≤ stop then throw .assertion
  return strtoull (((statBuf.set stop 0).drop bufOffset).takeWhile (· != 0))

/-- `gc_init`, with `statFile` in `/proc/self/stat`. -/
def gcInit (fuel : Nat) (statFile : List UInt8) (s : State) : Except Fault State := do
  let stackBase ← parseStackBase (statFile.take statBufSize) fuel
  if stackBase ≤ 0x100000 ∨ stackBase % pointerSize ≠ 0 then throw .assertion
  return { s with stackBase := stackBase, allocatorMutex := 1, gcInitialised := true }

end PrecisionGc
