import Mathlib.Data.BitVec

/-! The keyboard of the abstract machine, `riscv/ysyxsoc/input.c`: scancodes of set 2 turned into
events, one code a call. -/

set_option autoImplicit false

namespace Ysyx.Am

/-- `AM_KEY_NONE` and `AM_KEYS`. -/
inductive Key where
  | none | escape | f1 | f2 | f3 | f4 | f5 | f6 | f7 | f8 | f9 | f10 | f11 | f12 | grave | d1
  | d2 | d3 | d4 | d5 | d6 | d7 | d8 | d9 | d0 | minus | equals | backspace | tab | q | w | e | r
  | t | y | u | i | o | p | leftbracket | rightbracket | backslash | capslock | a | s | d | f | g
  | h | j | k | l | semicolon | apostrophe | return_ | lshift | z | x | c | v | b | n | m | comma
  | period | slash | rshift | lctrl | application | lalt | space | ralt | rctrl | up | down
  | left | right | insert | delete | home | end_ | pageup | pagedown
  deriving DecidableEq, Repr

/-- The entries of `LOOKUP_SCANCODE_NORMAL`; the others are 0. -/
def lookupScancodeNormal : List (BitVec 8 × Key) :=
  [(0x0E#8, .grave), (0x16#8, .d1), (0x1E#8, .d2), (0x26#8, .d3), (0x25#8, .d4), (0x2E#8, .d5),
   (0x36#8, .d6), (0x3D#8, .d7), (0x3E#8, .d8), (0x46#8, .d9), (0x45#8, .d0), (0x4E#8, .minus),
   (0x55#8, .equals), (0x1C#8, .a), (0x32#8, .b), (0x21#8, .c), (0x23#8, .d), (0x24#8, .e),
   (0x2B#8, .f), (0x34#8, .g), (0x33#8, .h), (0x43#8, .i), (0x3B#8, .j), (0x42#8, .k),
   (0x4B#8, .l), (0x3A#8, .m), (0x31#8, .n), (0x44#8, .o), (0x4D#8, .p), (0x15#8, .q),
   (0x2D#8, .r), (0x1B#8, .s), (0x2C#8, .t), (0x3C#8, .u), (0x2A#8, .v), (0x1D#8, .w),
   (0x22#8, .x), (0x35#8, .y), (0x1A#8, .z), (0x54#8, .leftbracket), (0x5B#8, .rightbracket),
   (0x5D#8, .backslash), (0x4C#8, .semicolon), (0x52#8, .apostrophe), (0x5A#8, .return_),
   (0x41#8, .comma), (0x49#8, .period), (0x4A#8, .slash), (0x66#8, .backspace), (0x0D#8, .tab),
   (0x58#8, .capslock), (0x12#8, .lshift), (0x14#8, .lctrl), (0x11#8, .lalt), (0x29#8, .space),
   (0x59#8, .rshift), (0x76#8, .escape), (0x05#8, .f1), (0x06#8, .f2), (0x04#8, .f3),
   (0x0C#8, .f4), (0x03#8, .f5), (0x0B#8, .f6), (0x83#8, .f7), (0x0A#8, .f8), (0x01#8, .f9),
   (0x09#8, .f10), (0x78#8, .f11), (0x07#8, .f12)]

def lookupScancodeExtend : List (BitVec 8 × Key) :=
  [(0x11#8, .ralt), (0x14#8, .rctrl), (0x71#8, .delete), (0x69#8, .end_), (0x6C#8, .home),
   (0x70#8, .insert), (0x7A#8, .pagedown), (0x7D#8, .pageup), (0x72#8, .down), (0x6B#8, .left),
   (0x74#8, .right), (0x75#8, .up)]

def keycodeOf (isExtend : Bool) (scancode : BitVec 8) : Key :=
  ((if isExtend then lookupScancodeExtend else lookupScancodeNormal).lookup scancode).getD .none

/-- `AM_INPUT_KEYBRD_T` -/
structure KeybrdEvent where
  keydown : Bool
  keycode : Key
  deriving DecidableEq, Repr

/-- The two static flags. -/
structure KeybrdState where
  isBreak : Bool
  isExtend : Bool
  deriving DecidableEq, Repr

def KeybrdState.init : KeybrdState := ⟨false, false⟩

/-- `__am_input_keybrd`, the device giving this scancode. -/
def amInputKeybrd (s : KeybrdState) (scancode : BitVec 8) : KeybrdState × KeybrdEvent :=
  if scancode = 0xe0#8 then (⟨s.isBreak, true⟩, ⟨false, .none⟩)
  else if scancode = 0xf0#8 then (⟨true, s.isExtend⟩, ⟨false, .none⟩)
  else if scancode ≠ 0x0#8 then (⟨false, false⟩, ⟨!s.isBreak, keycodeOf s.isExtend scancode⟩)
  else (s, ⟨false, .none⟩)

/-- The flags after a sequence of calls. -/
def keybrdAfter (s : KeybrdState) (scancodes : List (BitVec 8)) : KeybrdState :=
  scancodes.foldl (fun s scancode => (amInputKeybrd s scancode).1) s

/-- What the calls return. -/
def keybrdEvents (s : KeybrdState) : List (BitVec 8) → List KeybrdEvent
  | [] => []
  | scancode :: rest =>
      (amInputKeybrd s scancode).2 :: keybrdEvents (amInputKeybrd s scancode).1 rest

/-!
## Key actions
-/

/-- A key pressed or released, with its code. -/
structure KeyAction where
  extended : Bool
  released : Bool
  code : BitVec 8
  plain : code ≠ 0x00#8 ∧ code ≠ 0xe0#8 ∧ code ≠ 0xf0#8

/-- `[E0] [F0] code` -/
def KeyAction.encode (action : KeyAction) : List (BitVec 8) :=
  (if action.extended then [0xe0#8] else []) ++ (if action.released then [0xf0#8] else []) ++
    [action.code]

/-- The event of an action whose code is in its table. -/
def KeyAction.event (action : KeyAction) : Option KeybrdEvent :=
  let keycode := keycodeOf action.extended action.code
  if keycode = .none then none else some ⟨!action.released, keycode⟩

end Ysyx.Am
