import EmbeddedSystems.Screen

/-! `keyboard.c`: the line buffer, its editing functions, the send loop and `handle_keypress`.
Every access to `input_buffer` goes through the checked array operations, so a call that
returns has used only valid indices; `none` is undefined behaviour. A call also returns the
`fbputchar` calls it makes and the bytes the socket accepted. -/

namespace EmbeddedSystems
namespace Keyboard

open CArray Screen

def hidEnter : UInt8 := 0x28
def hidEscape : UInt8 := 0x29
def hidCapslock : UInt8 := 0x39
def hidBackspace : UInt8 := 0x2A
def hidTab : UInt8 := 0x2B
def hidRight : UInt8 := 0x4F
def hidLeft : UInt8 := 0x50

def usbLshift : UInt8 := 0x02
def usbRshift : UInt8 := 0x20

/-- The initialised part of the unshifted table; the rest of its 128 entries is zero. -/
def keycodeToAsciiUnshifted : List UInt8 := [
  0, 0, 0, 0, 0x61, 0x62, 0x63, 0x64,
  0x65, 0x66, 0x67, 0x68, 0x69, 0x6a, 0x6b, 0x6c,
  0x6d, 0x6e, 0x6f, 0x70, 0x71, 0x72, 0x73, 0x74,
  0x75, 0x76, 0x77, 0x78, 0x79, 0x7a, 0x31, 0x32,
  0x33, 0x34, 0x35, 0x36, 0x37, 0x38, 0x39, 0x30,
  0x0a, 0, 0, 0x09, 0x20, 0x2d, 0x3d, 0x5b,
  0x5d, 0x5c, 0, 0x3b, 0x27, 0x60, 0x2c, 0x2e,
  0x2f, 0, 0, 0, 0, 0, 0, 0]

def keycodeToAsciiShifted : List UInt8 := [
  0, 0, 0, 0, 0x41, 0x42, 0x43, 0x44,
  0x45, 0x46, 0x47, 0x48, 0x49, 0x4a, 0x4b, 0x4c,
  0x4d, 0x4e, 0x4f, 0x50, 0x51, 0x52, 0x53, 0x54,
  0x55, 0x56, 0x57, 0x58, 0x59, 0x5a, 0x21, 0x40,
  0x23, 0x24, 0x25, 0x5e, 0x26, 0x2a, 0x28, 0x29,
  0x0a, 0, 0, 0x09, 0x20, 0x5f, 0x2b, 0x7b,
  0x7d, 0x7c, 0, 0x3a, 0x22, 0x7e, 0x3c, 0x3e,
  0x3f, 0, 0, 0, 0, 0, 0, 0]

abbrev Buffer := Fin 256 → UInt8

structure State where
  isCapsOn : Bool
  inputBuffer : Buffer
  inputLength : ℤ
  cursorPosition : ℤ

def initial : State := ⟨false,fun _ => 0,0,0⟩

/-- The environment's answers to the `write()` calls of one key event: the value returned by
call number `i` when it is asked to write `count` bytes. It never exceeds `count`. -/
structure Writer where
  ret : ℕ → ℕ → ℤ
  ret_le : ∀ i count, ret i count ≤ count

structure Event where
  keycode : UInt8
  modifiers : UInt8
  writer : Writer

structure Output where
  puts : List Put
  wire : List UInt8

def keycodeToAscii (isCapsOn : Bool) (keycode modifiers : UInt8) : UInt8 :=
  if keycode = 0 then 0
  else if keycode ≥ 128 then 0
  else
    let shiftPressed := modifiers &&& usbLshift ≠ 0 || modifiers &&& usbRshift ≠ 0
    let layerToggle :=
      if keycode ≥ 0x04 ∧ keycode ≤ 0x1d then shiftPressed ^^ isCapsOn else shiftPressed
    if layerToggle then keycodeToAsciiShifted.getD keycode.toNat 0
    else keycodeToAsciiUnshifted.getD keycode.toNat 0

/-- `printf` of the buffer followed by `display_user_input`. -/
def redraw (s : State) : Option (State × List Put) := do
  let _ ← cString s.inputBuffer
  let puts ← displayUserInput s.inputBuffer s.inputLength s.cursorPosition
  return (s,puts)

def copyFromLeft (i : ℤ) (b : Buffer) : Option Buffer := do
  let d ← CArray.get b (i-1)
  CArray.set b i d

def copyFromRight (i : ℤ) (b : Buffer) : Option Buffer := do
  let d ← CArray.get b (i+1)
  CArray.set b i d

def inputBufAddChar (c : UInt8) (s : State) : Option (State × List Put) :=
  if s.inputLength < 256-1 then do
    let b ← forDown s.inputLength s.cursorPosition copyFromLeft s.inputBuffer
    let b ← CArray.set b s.cursorPosition c
    let b ← CArray.set b (s.inputLength+1) 0
    redraw { s with
      inputBuffer := b
      inputLength := s.inputLength+1
      cursorPosition := s.cursorPosition+1 }
  else some (s,[])

def inputBufDeleteChar (s : State) : Option (State × List Put) :=
  if s.cursorPosition > 0 then do
    let b ← forUp (s.cursorPosition-1) (s.inputLength-1) copyFromRight s.inputBuffer
    let b ← CArray.set b (s.inputLength-1) 0
    redraw { s with
      inputBuffer := b
      inputLength := s.inputLength-1
      cursorPosition := s.cursorPosition-1 }
  else some (s,[])

def inputBufClear (s : State) : Option (State × List Put) := do
  let b ← CArray.set s.inputBuffer 0 0
  redraw { s with inputBuffer := b, inputLength := 0, cursorPosition := 0 }

def cursorMoveLeft (s : State) : Option (State × List Put) :=
  if s.cursorPosition > 0 then do
    let s := { s with cursorPosition := s.cursorPosition-1 }
    let puts ← displayUserInput s.inputBuffer s.inputLength s.cursorPosition
    return (s,puts)
  else some (s,[])

def cursorMoveRight (s : State) : Option (State × List Put) :=
  if s.cursorPosition < s.inputLength then do
    let s := { s with cursorPosition := s.cursorPosition+1 }
    let puts ← displayUserInput s.inputBuffer s.inputLength s.cursorPosition
    return (s,puts)
  else some (s,[])

def request (b : Buffer) (sent : ℤ) : ℕ → Option (List UInt8)
  | 0 => some []
  | k+1 => do
    let c ← CArray.get b sent
    let rest ← request b (sent+1) k
    return c :: rest

/-- The loop of `send_input_buffer_to_server` from its `call`-th iteration on: the accepted
bytes and the return code. Each iteration accepts at least one byte, so `input_length`
iterations are enough. -/
def sendLoop (w : Writer) (b : Buffer) (inputLength : ℤ) :
    ℕ → ℕ → ℤ → Option (List UInt8 × ℤ)
  | fuel, call, sent =>
    if sent < inputLength then
      match fuel with
      | 0 => none
      | fuel+1 => do
        let bytes ← request b sent (inputLength-sent).toNat
        let n := w.ret call (inputLength-sent).toNat
        if n ≤ 0 then return ([],-1)
        else
          let (wire,rc) ← sendLoop w b inputLength fuel (call+1) (sent+n)
          return (bytes.take n.toNat ++ wire,rc)
    else some ([],0)

def sendInputBufferToServer (s : State) (w : Writer) : Option (List UInt8 × ℤ) :=
  sendLoop w s.inputBuffer s.inputLength s.inputLength.toNat 0 0

def handleTab (s : State) : Option (State × List Put) := do
  let (s,puts₁) ← inputBufAddChar space s
  let (s,puts₂) ← inputBufAddChar space s
  let (s,puts₃) ← inputBufAddChar space s
  let (s,puts₄) ← inputBufAddChar space s
  return (s,puts₁ ++ puts₂ ++ puts₃ ++ puts₄)

/-- The Enter branch of `handle_keypress`: the buffer is kept when the send fails. -/
def handleEnter (s : State) (w : Writer) : Option (State × Output) :=
  if s.inputLength > 0 then do
    let (wire,rc) ← sendInputBufferToServer s w
    if rc = 0 then
      let (s,puts) ← inputBufClear s
      return (s,⟨puts,wire⟩)
    else return (s,⟨[],wire⟩)
  else some (s,⟨[],[]⟩)

def edit (r : Option (State × List Put)) : Option (State × Output) :=
  r.map fun (s,puts) => (s,⟨puts,[]⟩)

def handleKeypress (s : State) (e : Event) : Option (State × Output) :=
  if e.keycode = hidCapslock then some ({ s with isCapsOn := !s.isCapsOn },⟨[],[]⟩)
  else if e.keycode = hidBackspace then edit (inputBufDeleteChar s)
  else if e.keycode = hidTab then edit (handleTab s)
  else if e.keycode = hidEnter then handleEnter s e.writer
  else if e.keycode = hidEscape then some (s,⟨[],[]⟩)
  else if e.keycode = hidLeft then edit (cursorMoveLeft s)
  else if e.keycode = hidRight then edit (cursorMoveRight s)
  else
    let ascii := keycodeToAscii s.isCapsOn e.keycode e.modifiers
    if ascii ≠ 0 ∧ ascii ≠ 0x0a ∧ ascii ≠ 0x09 then edit (inputBufAddChar ascii s)
    else some (s,⟨[],[]⟩)

/-- A run of key events; `none` once an event has undefined behaviour. -/
def step (s : Option State) (e : Event) : Option State :=
  s.bind fun s => (handleKeypress s e).map Prod.fst

end Keyboard
end EmbeddedSystems
