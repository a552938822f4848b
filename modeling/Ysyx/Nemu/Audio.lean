import Ysyx.Lib.Slice

/-! The audio device and its driver: the guest fills the stream buffer behind the position
it read from `COUNT`, and the host's audio thread drains it from the front. -/

set_option autoImplicit false

namespace Ysyx.Nemu

open Lib (slice blit)

/-- `CONFIG_SB_SIZE`. -/
def sbSize : Int := 0x10000

/-- `audio.c`: the buffer, the `COUNT` register and the two indices. -/
structure Audio where
  sbuf : Nat → BitVec 8
  regCount : Int
  front : Int
  tail : Int

def Audio.init (sbuf : Nat → BitVec 8) : Audio := ⟨sbuf, 0, 0, 0⟩

/-- `audio_io_handler` at `AUDIO_COUNT_ADDR`; nothing when its assertion fails. -/
def Audio.ioHandler (audio : Audio) (isWrite : Bool) : Option Audio :=
  let audio :=
    if isWrite then { audio with tail := audio.regCount }
    else { audio with regCount := audio.tail }
  if audio.tail ≤ sbSize then some audio else none

/-- `inl(AUDIO_COUNT_ADDR)`. -/
def Audio.readCount (audio : Audio) : Option (Int × Audio) :=
  (audio.ioHandler false).map fun audio => (audio.regCount, audio)

/-- `outl(AUDIO_COUNT_ADDR, count)`. -/
def Audio.writeCount (audio : Audio) (count : Int) : Option Audio :=
  { audio with regCount := count }.ioHandler true

/-- `outb(AUDIO_SBUF_ADDR + count, byte)`. -/
def Audio.writeSbuf (audio : Audio) (count : Int) (byte : BitVec 8) : Audio :=
  { audio with sbuf := blit audio.sbuf count.toNat [byte] }

/-- `mycallback`: the bytes copied to the stream, without the padding. -/
def Audio.mycallback (audio : Audio) (len : Nat) : List (BitVec 8) × Audio :=
  let nread : Int := if audio.tail - audio.front < len then audio.tail - audio.front else len
  let stream := slice audio.sbuf audio.front.toNat nread.toNat
  let front := audio.front + nread
  (stream,
    if front = audio.tail then { audio with front := 0, tail := 0 }
    else { audio with front := front })

/-- Where the guest is in `__am_audio_play`: outside, before it reads `COUNT` with the
bytes from `ptr` to `end` to go, or in the fill that started from a count it read. -/
inductive Guest where
  | idle
  | read (rest : List (BitVec 8))
  | fill (count : Int) (rest : List (BitVec 8))
  deriving DecidableEq, Repr

/-- `given` and `delivered` collect the bytes of all play requests and of all callbacks. -/
structure AudioSystem where
  audio : Audio
  guest : Guest
  given : List (BitVec 8)
  delivered : List (BitVec 8)

def AudioSystem.init (sbuf : Nat → BitVec 8) : AudioSystem := ⟨Audio.init sbuf, .idle, [], []⟩

/-- One atomic step: a call of `__am_audio_play`, the guest's next access, or a callback. -/
inductive AudioAct where
  | play (buf : List (BitVec 8))
  | guest
  | callback (len : Nat)
  deriving DecidableEq, Repr

/-- The guest's next access of the device. -/
def AudioSystem.guestStep (sys : AudioSystem) : Option AudioSystem :=
  match sys.guest with
  | .idle => some sys
  | .read [] => some { sys with guest := .idle }
  | .read rest =>
      sys.audio.readCount.map fun (count, audio) =>
        { sys with
          audio := audio
          guest := if count = sbSize then .read rest else .fill count rest }
  | .fill count (byte :: rest) =>
      if count < sbSize then
        some { sys with audio := sys.audio.writeSbuf count byte, guest := .fill (count + 1) rest }
      else
        (sys.audio.writeCount count).map fun audio =>
          { sys with audio := audio, guest := .read (byte :: rest) }
  | .fill count [] =>
      (sys.audio.writeCount count).map fun audio => { sys with audio := audio, guest := .read [] }

def AudioSystem.step (act : AudioAct) (sys : AudioSystem) : Option AudioSystem :=
  match act with
  | .play buf =>
      match sys.guest with
      | .idle => some { sys with guest := .read buf, given := sys.given ++ buf }
      | _ => some sys
  | .guest => sys.guestStep
  | .callback len =>
      let (stream, audio) := sys.audio.mycallback len
      some { sys with audio := audio, delivered := sys.delivered ++ stream }

def AudioSystem.run : List AudioAct → AudioSystem → Option AudioSystem
  | [], sys => some sys
  | act :: acts, sys => (sys.step act).bind (run acts)

/-- A callback that takes the last byte while the guest fills the buffer behind it: both
indices go back to 0 under the count the guest has read. -/
def AudioSystem.Rewinds (act : AudioAct) (sys : AudioSystem) : Prop :=
  match act, sys.guest with
  | .callback len, .fill _ _ => 0 < sys.audio.tail ∧ sys.audio.tail - sys.audio.front ≤ len
  | _, _ => False

/-- No callback of the run rewinds the buffer under a fill. -/
def AudioSystem.Undisturbed : List AudioAct → AudioSystem → Prop
  | [], _ => True
  | act :: acts, sys =>
      ¬ sys.Rewinds act ∧ ∀ next, sys.step act = some next → Undisturbed acts next

end Ysyx.Nemu
