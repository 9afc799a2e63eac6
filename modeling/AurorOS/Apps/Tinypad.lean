import AurorOS.Shell.Kernel

/-! # The text editor

`tinypad` reads lines into a growing buffer until `.exit` or `.save`.  Saving asks for
a path until it names something other than a directory in an existing folder, and
only then changes the file system.
-/

namespace AurorOS.Apps

open Fs Devices Shell

/-- `strtok`: the token up to the separator and, if there was one, the rest. -/
def strtok (s : Option CStr) (sep : UInt8) : Option (CStr × Option CStr) :=
  match s with
  | none => none
  | some [] => none
  | some (c :: rest) =>
      let token := (c :: rest).takeWhile (· ≠ sep)
      match (c :: rest).dropWhile (· ≠ sep) with
      | [] => some (token, none)
      | _ :: rest => some (token, some rest)

/-- The loop of `resolve_folder`; each token takes a character at least. -/
def folderLoop : Nat → Option CStr → Ptr → Kernel Ptr
  | 0, _, _ => Program.stop (.fault .outOfFuel)
  | fuel + 1, ptr, current =>
      match strtok ptr slash with
      | none => return current
      | some (token, ptr) => do
          let child ← resolve token current
          if child = 0 then return 0
          folderLoop fuel ptr child

def resolveFolder (path : CStr) : Kernel Ptr := do
  let root ← Program.read fun m => m.fs.fsRoot
  folderLoop (path.length + 1) (some (path.take 255)) root

/-- A path at its last slash: what is before it and what is behind it. -/
def splitAtLastSlash (path : CStr) : Option (CStr × CStr) :=
  match path.reverse.dropWhile (· ≠ slash) with
  | [] => none
  | _ :: front => some (front.reverse, (path.reverse.takeWhile (· ≠ slash)).reverse)

/-- The folder and the name in it that a path typed at the prompt of `.save` means. -/
def saveTarget (fullpath : CStr) : Kernel (Ptr × CStr) :=
  match splitAtLastSlash fullpath with
  | some (before, after) => do return (← resolveFolder before, after)
  | none => do return (← Program.read fun m => m.fs.fsRoot, fullpath)

/-- What a finished dialogue of `.save` is about; `file` is `NULL` if there is none yet. -/
structure SaveRequest where
  folder : Ptr
  filename : CStr
  file : Ptr

/-- The dialogue of `.save`.  A file that it finds missing is created there and then, which
    is no directory, so the check for one concerns files that are found only. -/
def saveDialogue : Nat → Kernel SaveRequest
  | 0 => Program.stop (.fault .outOfFuel)
  | fuel + 1 => do
      print "File to save: " 0x07
      let fullpath := cString (← readStr (freshArray 256) 256 false 0x07 (cstr "/"))
      let (folder, filename) ← saveTarget fullpath
      if folder = 0 then
        printError "Folder does not exist"
        saveDialogue fuel
      else
        let file ← resolve filename folder
        if file = 0 then return ⟨folder, filename, 0⟩
        else
          let n ← deref file
          if n.type = .dir then
            printInfo "Is a directory."
            saveDialogue fuel
          else return ⟨folder, filename, file⟩

/-- A round of a loop that reads a line takes a scancode at least. -/
def rounds : Kernel Nat := Program.read fun m => m.console.scancodes.length + 1

/-- The edited text and the size of the block it is in. -/
structure TextBuffer where
  capacity : Nat
  bytes : List UInt8

/-- The two stores that add a line. -/
def TextBuffer.append (buffer : TextBuffer) (line : CStr) : Kernel TextBuffer :=
  if buffer.bytes.length + line.length + 1 ≤ buffer.capacity then
    return { buffer with bytes := buffer.bytes ++ line ++ [10] }
  else Program.stop (.fault .invalidAccess)

/-- The main loop: what is to be saved, or `none` if the text is discarded. -/
def editLoop (color : UInt8) : Nat → TextBuffer → Kernel (Option (SaveRequest × List UInt8))
  | 0, _ => Program.stop (.fault .outOfFuel)
  | fuel + 1, buffer => do
      let line := cString (← readStr (freshArray 81) 81 false color [])
      if line.head? = some 46 then
        if line = cstr ".exit" then return none
        else if line = cstr ".save" then
          let request ← saveDialogue (← rounds)
          return some (request, buffer.bytes)
        else
          printWarn "This is not an editor command."
          editLoop color fuel buffer
      else if buffer.bytes.length + line.length + 1 > buffer.capacity then
        let newBuffer ← malloc (buffer.capacity + 150)
        if newBuffer = 0 then
          printError "Out of memory!"
          return none
        else editLoop color fuel (← { buffer with capacity := buffer.capacity + 150 }.append line)
      else editLoop color fuel (← buffer.append line)

/-- `printct`, which may overrun its temporary copy. -/
def printct (str : String) (color : UInt8) : Kernel Unit :=
  onConsole fun c =>
    match c.screen.printct (cstr str) color with
    | .ok screen => (.ok (), { c with screen := screen })
    | .error fault => (.error (.fault fault), c)

/-- The part of `tinypad_main` before anything is saved. -/
def tinypadEdit (color barcolor : UInt8) : Kernel (Option (SaveRequest × List UInt8)) := do
  onScreen (·.clearscreen)
  onScreen (·.paintline 0 barcolor)
  printct "Tinypad" barcolor
  println "\n\n `.exit` to discard and exit; `.save` to save and exit\n" 0x0F
  let buffer ← malloc 1762
  if buffer = 0 then
    printError "Memory allocation failed"
    return none
  else
    match ← editLoop color (← rounds) ⟨1762, []⟩ with
    | none =>
        onScreen (·.clearscreen)
        return none
    | some saved => return some saved

/-- A missing file is created for user 1001 and added to the folder, and the file gets the
    text. -/
def saveText (request : SaveRequest) (text : List UInt8) : Kernel Unit := do
  let file ← if request.file = 0 then do
      let created ← fsCreateNode .file request.filename request.folder 1001
      fsAddChild request.folder created
      pure created
    else pure request.file
  -- the length is cut to 32 bits
  fsWrite file (text.take (text.length % 2 ^ 32))

def tinypadMain (color barcolor : UInt8) : Kernel Unit := do
  match ← tinypadEdit color barcolor with
  | none => pure ()
  | some (request, text) =>
      saveText request text
      print "File saved successfully.\n" 0x0A
      onScreen (·.clearscreen)

end AurorOS.Apps
