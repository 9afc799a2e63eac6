import AurorOS.Apps.Hexedit
import AurorOS.Apps.Tinypad

/-! # The commands of the shell

The commands that work on files and directories.  An operand is `none` where it is
`NULL`.
-/

namespace AurorOS.Shell

open Fs Devices Apps

/-- `!path || path[0] == 0`. -/
def missing (operand : Option CStr) : Bool := operand.getD [] = []

/-- The loop of `shc_ls` from index `i` on, with `left` rounds left. -/
def lsLoop (d : FsNode) : Nat → Nat → Kernel Unit
  | 0, _ => pure ()
  | left + 1, i => do
      let child ← ofFs fun _ => readChild d i
      if child ≠ 0 then
        let c ← deref child
        onScreen (·.print c.name 0x07)
        print " " 0x07
      lsLoop d left (i + 1)

def shcLs (dir : Ptr) : Kernel Unit := do
  if dir = 0 then return ()
  let d ← deref dir
  lsLoop d d.childCount 0
  println "" 0x07

/-- Returns the new `*current_dir`. -/
def shcCd (currentDir : Ptr) (targetPath : Option CStr) (userId : UInt64) : Kernel Ptr := do
  if missing targetPath then
    printError "Missing operand"
    return currentDir
  let target ← resolve (targetPath.getD []) currentDir
  if target = 0 then
    printError "Directory not found"
    return currentDir
  let n ← deref target
  if n.type ≠ .dir then
    printInfo "Not a directory"
    return currentDir
  if permsOf userId n &&& 1 = 0 then
    printError "Permission denied"
    return currentDir
  return target

def octalToUint16 (str : CStr) : UInt16 :=
  (str.takeWhile fun c => 48 ≤ c ∧ c ≤ 55).foldl
    (fun result c => (result <<< 3) ||| (c - 48).toUInt16) 0

/-- The mask of a letter: `r`, `w` or `x`. -/
def modeMask (c : UInt8) : UInt16 :=
  if c = 114 then 4 else if c = 119 then 2 else if c = 120 then 1 else 0

/-- The permissions that `chmod` sets: an octal number, or `+` or `-` and letters. -/
def changedPermissions (permArg : CStr) (perms : UInt16) : UInt16 :=
  match permArg with
  -- no operation applies to what is read behind the terminator
  | [] => perms
  | op :: letters =>
      if 48 ≤ op ∧ op ≤ 55 then octalToUint16 permArg
      else letters.foldl (fun perms c =>
        if op = 43 then perms ||| modeMask c else if op = 45 then perms &&& ~~~modeMask c
          else perms) perms

def shcChmod (currentDir : Ptr) (userId : UInt64) (permArg path : Option CStr) : Kernel Unit := do
  match permArg, path with
  | some permArg, some path =>
      let target ← resolve path currentDir
      if target = 0 then printError "File not found"
      else
        let n ← deref target
        if n.owner ≠ userId ∧ userId ≠ 0 then printError "Permission denied"
        else
          onFs' fun s => .ok (s.setNode target { n with
            permissions := changedPermissions permArg n.permissions })
          printInfo "Permissions updated"
  | _, _ => printError "Missing operand"

/-- What `shc_cat` does once it has checked the file. -/
def catFile (n : FsNode) : Kernel Unit := do
  let data ← ofFs (fileData · n)
  onScreen (·.printlnLimit data 0x07)

def shcCat (currentDir : Ptr) (path : Option CStr) (userId : UInt64) : Kernel Unit := do
  if missing path then printError "Missing operand"
  else
    let file ← resolve (path.getD []) currentDir
    if file = 0 then printError "File does not exist"
    else
      let n ← deref file
      if n.type ≠ .file then printInfo "Is a directory"
      else if ¬ Readable userId n then printError "Permission denied"
      else catFile n

/-- The last component and the slashes behind it. -/
def fsBasename (path : CStr) : CStr :=
  match path.reverse.dropWhile (· = slash) with
  | [] => path
  | body => path.drop (body.dropWhile (· ≠ slash)).length

/-- The directory that `mkdir` puts the new one in, `NULL` if there is none: what is in
    front of the last slash, up to 255 characters of it, is resolved. -/
def mkdirParent (s : FsState) (currentDir : Ptr) (path : CStr) : Except Fault Ptr := do
  match splitAtLastSlash path with
  | none => return currentDir
  | some (front, _) =>
      let parent ← fsResolve s (front.take 255) currentDir
      if parent = 0 then return 0
      let n ← s.deref parent
      return if n.type ≠ .dir then 0 else parent

def shcMkdir (currentDir : Ptr) (path : Option CStr) (owner : UInt64) : Kernel Unit := do
  if missing path then printError "Missing operand"
  else
    let path := path.getD []
    let name := fsBasename path
    if name = [] then printError "Invalid name"
    else
      let existing ← resolve path currentDir
      if existing ≠ 0 then printError "Directory already exists"
      else
        let parent ← ofFs (mkdirParent · currentDir path)
        if parent = 0 ∧ (splitAtLastSlash path).isSome then printError "Invalid parent directory"
        else
          let newDir ← fsCreateNode .dir name parent owner
          fsAddChild parent newDir

/-- `fuel` bounds the nested calls and rounds of `fs_delete`. -/
def shcRm (fuel : Nat) (currentDir : Ptr) (path : Option CStr) : Kernel Unit := do
  if missing path then printError "Missing operand"
  else
    let node ← resolve (path.getD []) currentDir
    if node = 0 then printError "No such file or directory"
    else
      let n ← deref node
      let confirmed ← if n.type = .dir then readYn "Delete directory? (y/n) $ " 0x07 else pure true
      if confirmed = false then printInfo "Omitting directory"
      else if n.parent = 0 then printError "Cannot remove root directory '/'"
      else
        onFs' (fsRemoveChild · n.parent node)
        onFs' (fsDelete fuel · node)

/-- The commands that work on files and directories, with the operands they are given. -/
inductive Command where
  | cat (path : Option CStr)
  | cd (path : Option CStr)
  | ls
  | mkdir (path : Option CStr)
  | rm (path : Option CStr)
  | chmod (permArg path : Option CStr)
  | hexedit (filename : Option CStr)
  | tinypad
  deriving DecidableEq, Repr

/-- What `shell_evaluate_command` does for them; it returns the new current directory. -/
def runCommand (fuel : Nat) (userId : UInt64) (currentDir : Ptr) : Command → Kernel Ptr
  | .cat path => do shcCat currentDir path userId; return currentDir
  | .cd path => shcCd currentDir path userId
  | .ls => do shcLs currentDir; return currentDir
  | .mkdir path => do shcMkdir currentDir path userId; return currentDir
  | .rm path => do shcRm fuel currentDir path; return currentDir
  | .chmod permArg path => do
      if permArg = none ∨ path = none then printError "Usage: chmod +rwx/700 file"
      else shcChmod currentDir userId permArg path
      return currentDir
  | .hexedit filename => do hexeditMain userId filename currentDir; return currentDir
  | .tinypad => do tinypadMain 0x07 0x9F; return currentDir

/-- The `home` of `shell_printprefix`, cut to 255 characters. -/
def promptHome (user : CStr) : CStr :=
  if user = cstr "root" then cstr "/root" else (cstr "/home/" ++ user).take 255

def shellPrintprefix (user pcname directory : CStr) (s : Screen) : Screen :=
  let home := promptHome user
  let isMatch := home.isPrefixOf directory
  let below := directory.drop home.length
  let shown := if isMatch then (if below.head? = some slash then below.tail else below)
    else directory
  let s := (((s.print user 0x0B).print (cstr "@") 0x07).print pcname 0x0B).print (cstr ":") 0x07
  let s := if isMatch then s.print (cstr "~") 0x0B else s
  let s := if isMatch ∧ shown ≠ [] then s.print (cstr "/") 0x0B else s
  (s.print shown 0x0B).print (cstr " $ ") 0x0F

/-- The prompt of a round of `shell_main`. -/
def prompt (user : CStr) (currentDir : Ptr) : Kernel Unit := do
  let directory ← ofFs (shcPwd · currentDir)
  onScreen ( shellPrintprefix user (cstr "auror") directory)

end AurorOS.Shell
