import AurorOS.Apps.Tinypad

/-! # The path at the prompt of `.save`

The editor forgets the path when the dialogue is over.  Here it is kept beside the request;
without it, the editor is the editor.
-/

namespace AurorOS.Apps

open Fs Devices Shell Program

/-- `saveDialogue` with the path that is typed last. -/
def typedDialogue : Nat → Kernel (CStr × SaveRequest)
  | 0 => Program.stop (.fault .outOfFuel)
  | fuel + 1 => do
      print "File to save: " 0x07
      let fullpath := cString (← readStr (freshArray 256) 256 false 0x07 (cstr "/"))
      let (folder, filename) ← saveTarget fullpath
      if folder = 0 then
        printError "Folder does not exist"
        typedDialogue fuel
      else
        let file ← resolve filename folder
        if file = 0 then return (fullpath, ⟨folder, filename, 0⟩)
        else
          let n ← deref file
          if n.type = .dir then
            printInfo "Is a directory."
            typedDialogue fuel
          else return (fullpath, ⟨folder, filename, file⟩)

/-- `editLoop` with that path. -/
def typedLoop (color : UInt8) : Nat → TextBuffer → Kernel (Option (CStr × SaveRequest × List UInt8))
  | 0, _ => Program.stop (.fault .outOfFuel)
  | fuel + 1, buffer => do
      let line := cString (← readStr (freshArray 81) 81 false color [])
      if line.head? = some 46 then
        if line = cstr ".exit" then return none
        else if line = cstr ".save" then
          let (path, request) ← typedDialogue (← rounds)
          return some (path, request, buffer.bytes)
        else
          printWarn "This is not an editor command."
          typedLoop color fuel buffer
      else if buffer.bytes.length + line.length + 1 > buffer.capacity then
        let newBuffer ← malloc (buffer.capacity + 150)
        if newBuffer = 0 then
          printError "Out of memory!"
          return none
        else typedLoop color fuel (← { buffer with capacity := buffer.capacity + 150 }.append line)
      else typedLoop color fuel (← buffer.append line)

/-- `tinypadEdit` with that path. -/
def typedEdit (color barcolor : UInt8) : Kernel (Option (CStr × SaveRequest × List UInt8)) := do
  onScreen (·.clearscreen)
  onScreen (·.paintline 0 barcolor)
  printct "Tinypad" barcolor
  println "\n\n `.exit` to discard and exit; `.save` to save and exit\n" 0x0F
  let buffer ← malloc 1762
  if buffer = 0 then
    printError "Memory allocation failed"
    return none
  else
    match ← typedLoop color (← rounds) ⟨1762, []⟩ with
    | none =>
        onScreen (·.clearscreen)
        return none
    | some saved => return some saved

variable {color barcolor : UInt8}

/-- Without the path it is the dialogue. -/
theorem saveDialogue_eq (fuel : Nat) : saveDialogue fuel = Prod.snd <$> typedDialogue fuel := by
  induction fuel with
  | zero => rfl
  | succ fuel ih =>
      rw [saveDialogue, typedDialogue]
      simp only [map_bind, map_ite, map_pure, ih]

theorem editLoop_eq (fuel : Nat) (buffer : TextBuffer) :
    editLoop color fuel buffer = Option.map Prod.snd <$> typedLoop color fuel buffer := by
  induction fuel generalizing buffer with
  | zero => rfl
  | succ fuel ih =>
      rw [editLoop, typedLoop]
      simp only [map_bind, map_ite, map_pure, ih, saveDialogue_eq, bind_map_left, Option.map_some,
        Option.map_none]

theorem tinypadEdit_eq :
    tinypadEdit color barcolor = Option.map Prod.snd <$> typedEdit color barcolor := by
  rw [tinypadEdit, typedEdit]
  simp only [map_bind, map_ite, map_pure, editLoop_eq, bind_map_left, Option.map_none]
  refine bind_congr fun _ => bind_congr fun _ => bind_congr fun _ => bind_congr fun _ => bind_congr
    fun buffer => ?_
  refine if_congr Iff.rfl rfl ?_
  refine bind_congr fun _ => bind_congr fun saved => ?_
  cases saved <;> rfl

end AurorOS.Apps
