import Ysyx.Am.Input

/-! The keyboard driver decodes every sequence of key actions, whatever polls without data are
made between and inside their codes. -/

set_option autoImplicit false

namespace Ysyx.Am

/-!
## Calls
-/

/-- The events with a key. -/
def keyEvents (s : KeybrdState) (scancodes : List (BitVec 8)) : List KeybrdEvent :=
  (keybrdEvents s scancodes).filter (·.keycode ≠ .none)

theorem keybrdAfter_append (s : KeybrdState) (first second : List (BitVec 8)) :
    keybrdAfter s (first ++ second) = keybrdAfter (keybrdAfter s first) second :=
  List.foldl_append

theorem keybrdEvents_append (s : KeybrdState) (first second : List (BitVec 8)) :
    keybrdEvents s (first ++ second) =
      keybrdEvents s first ++ keybrdEvents (keybrdAfter s first) second := by
  induction first generalizing s with
  | nil => rfl
  | cons scancode first ih =>
      rw [List.cons_append, keybrdEvents, keybrdEvents, ih]
      rfl

theorem keyEvents_append (s : KeybrdState) (first second : List (BitVec 8)) :
    keyEvents s (first ++ second) =
      keyEvents s first ++ keyEvents (keybrdAfter s first) second := by
  rw [keyEvents, keybrdEvents_append, List.filter_append]
  rfl

theorem keyEvents_cons (s : KeybrdState) (scancode : BitVec 8) (rest : List (BitVec 8)) :
    keyEvents s (scancode :: rest) =
      keyEvents s [scancode] ++ keyEvents (amInputKeybrd s scancode).1 rest :=
  keyEvents_append s [scancode] rest

/-- A poll without data changes nothing, wherever it is made. -/
theorem keyEvents_filter (s : KeybrdState) (scancodes : List (BitVec 8)) :
    keyEvents s (scancodes.filter (· ≠ 0#8)) = keyEvents s scancodes := by
  induction scancodes generalizing s with
  | nil => rfl
  | cons scancode rest ih =>
      rw [List.filter_cons, keyEvents_cons s scancode rest]
      by_cases empty : scancode = 0#8
      · subst empty
        rw [if_neg (by decide), ih]
        rfl
      · rw [if_pos (by simpa using empty), keyEvents_cons, ih]

/-!
## Actions
-/

theorem amInputKeybrd_code (s : KeybrdState) (action : KeyAction) :
    amInputKeybrd s action.code =
      (⟨false, false⟩, ⟨!s.isBreak, keycodeOf s.isExtend action.code⟩) := by
  obtain ⟨zero, extend, released⟩ := action.plain
  rw [amInputKeybrd, if_neg extend, if_neg released, if_pos zero]

/-- A code takes the flags that its prefixes have set, and clears them. -/
theorem keybrd_encode (action : KeyAction) :
    keybrdAfter .init action.encode = .init ∧
      keyEvents .init action.encode = action.event.toList := by
  have flags : keybrdAfter .init ((if action.extended then [0xe0#8] else []) ++
      (if action.released then [0xf0#8] else [])) = ⟨action.released, action.extended⟩ := by
    cases action.extended <;> cases action.released <;> rfl
  have silent : keyEvents .init ((if action.extended then [0xe0#8] else []) ++
      (if action.released then [0xf0#8] else [])) = [] := by
    cases action.extended <;> cases action.released <;> rfl
  have call := amInputKeybrd_code ⟨action.released, action.extended⟩ action
  rw [KeyAction.encode]
  constructor
  · rw [keybrdAfter_append, flags, keybrdAfter, List.foldl_cons, call]
    rfl
  · rw [keyEvents_append, flags, silent, List.nil_append, keyEvents, keybrdEvents, call,
      KeyAction.event]
    dsimp only [keybrdEvents]
    by_cases unknown : keycodeOf action.extended action.code = .none
    · simp [unknown]
    · simp [unknown]

theorem keybrd_actions (actions : List KeyAction) :
    keybrdAfter .init (actions.flatMap KeyAction.encode) = .init ∧
      keyEvents .init (actions.flatMap KeyAction.encode) = actions.filterMap KeyAction.event := by
  induction actions with
  | nil => exact ⟨rfl, rfl⟩
  | cons action actions ih =>
      obtain ⟨after, events⟩ := keybrd_encode action
      rw [List.flatMap_cons, keybrdAfter_append, keyEvents_append, after, events, ih.1, ih.2,
        List.filterMap_cons]
      refine ⟨rfl, ?_⟩
      cases action.event <;> rfl

/-- However polls without data are mixed with the codes of key actions, and wherever the last
code is cut off, the events with a key are those of the actions whose code is in its table. -/
theorem keybrd_decodes (actions : List KeyAction) (cut scancodes : List (BitVec 8))
    (prefixes : cut ∈ [[], [0xe0#8], [0xf0#8], [0xe0#8, 0xf0#8]])
    (bytes : scancodes.filter (· ≠ 0#8) = actions.flatMap KeyAction.encode ++ cut) :
    (keybrdEvents .init scancodes).filter (·.keycode ≠ .none) =
      actions.filterMap KeyAction.event := by
  obtain ⟨after, events⟩ := keybrd_actions actions
  have each : ∀ cut ∈ [[], [0xe0#8], [0xf0#8], [0xe0#8, 0xf0#8]], keyEvents .init cut = [] := by
    decide
  have silent := each cut prefixes
  have merged := keyEvents_filter .init scancodes
  rw [bytes, keyEvents_append, after, events, silent, List.append_nil] at merged
  exact merged.symm

theorem keybrd_decodes_up :
    (keybrdEvents .init [0x00#8, 0xe0#8, 0x00#8, 0xf0#8, 0x00#8, 0x75#8, 0x02#8, 0xf0#8]).filter
        (·.keycode ≠ .none) = [⟨false, .up⟩] :=
  keybrd_decodes [⟨true, true, 0x75#8, by decide⟩, ⟨false, false, 0x02#8, by decide⟩] [0xf0#8]
    [0x00#8, 0xe0#8, 0x00#8, 0xf0#8, 0x00#8, 0x75#8, 0x02#8, 0xf0#8] (by decide) (by decide)

end Ysyx.Am
