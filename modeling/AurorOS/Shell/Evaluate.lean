import AurorOS.Apps.Calculator
import AurorOS.Shell.Frames

/-! # The command evaluator

`shell_evaluate_command` cuts a line into words, joins the words behind the first one and does
what the first word says.  `eval` evaluates what was joined.
-/

namespace AurorOS.Shell

open Fs Devices Apps Numbers Lines Outcome

inductive EvalResult where
  | normal
  | exitShell
  | exitKernelMainLoop
  | recursiveNormalExit
  deriving DecidableEq, Repr

/-- The enumerator's value. -/
def EvalResult.value : EvalResult → Nat
  | .normal => 0
  | .exitShell => 1
  | .exitKernelMainLoop => 2
  | .recursiveNormalExit => 3

/-- `printchar('-', 0x07)`, `count` times. -/
def printDashes (count : Nat) (s : Screen) : Screen :=
  (List.replicate count 45).foldl (fun s c => s.printchar c 0x07) s

def shcCowsay (message : CStr) : Kernel Unit := do
  let len := message.length
  print "  " 0x07
  onScreen (printDashes (len + 2))
  println "" 0x07
  print " < " 0x07
  onScreen (·.print message 0x07)
  print " >\n" 0x07
  print "  " 0x07
  onScreen (printDashes (len + 2))
  println "" 0x07
  print ("   \\   ^__^\n    \\  (oo)\\_______\n       (__)\\       )\\/ \n           ||---w||\n" ++
    "           ||    ||\n") 0x07

def shcMap (arch : Arch) : Kernel Unit := do
  (List.range 8).forM fun row => do
    (List.range 4).forM fun col => do
      let color := (UInt8.ofNat row <<< 4) ||| UInt8.ofNat col
      print " 0x" 0x07
      let buf ← ofFs fun _ => utoa arch color.toUInt64 (freshArray 3) 16
      onScreen (·.print (cString buf) color)
    println "" 0x07
  print (" ~!@#$%^&*()_+        `1234567890-= \nqwertyuiop[]\\        QWERTYUIOP\x7b\x7d| \n" ++
    "asdfghjkl;'          ASDFGHJKL:\" \nzxcvbnm,./           ZXCVBNM<>? \n") 0x0F

/-- `option` is `none` where it is `NULL`, which `streql` reads from. -/
def shcEclair : Option CStr → Kernel Unit
  | none => Program.stop (.fault .invalidAccess)
  | some option => do
      if option = cstr "1" then
        (List.range 128).forM fun i => print " Hello, world! " (UInt8.ofNat i)
        println "" 0x07
      else if option = cstr "2" then onScreen (·.paintscreen 0x91)
      else printError "Invalid treatment argument provided!"

def shcHelp : Kernel Unit := do
  let commands := [
    " ver - displays OS version info",
    " print <arg1> - prints out <arg1>",
    " map - prints out every VGA color and every printable character in aurorOS",
    " cowsay <arg1> - displays ascii art of an cow saying <arg1>",
    " tinypad - opens a text editor",
    " eclair - a little development command",
    " repo - get the AurorOS repo",
    " reboot - reboots the computer (works only in QEMU)",
    " shutdown - shuts down the computer (works only in QEMU)",
    " ls - shows all files in the current directory",
    " cat - reads a specified file",
    " cd - changes the directory",
    " chmod - changes permissions of a file",
    " exit - exits the shell or shuts down the OS",
    " calc - opens a calculator"]
  println "" 0x07
  commands.forM (println · 0x07)
  println "" 0x07

/-- The calls of `qemu.asm` return at once, so that `reboot` and `shutdown` panic. -/
def reboot : Kernel Unit := Program.stop (.fault (.kernelpanic "REBOOT_NOT_SUCCESSFULL" ""))

def shutdown : Kernel Unit := Program.stop (.fault (.kernelpanic "SHUTDOWN_NOT_SUCCESSFULL" ""))

/-- The lines of `id`. -/
def printId (arch : Arch) (userId : UInt64) : Kernel Unit := do
  let buf ← ofFs fun _ => utoa arch 12345 (freshArray 32) 10
  onScreen (·.println (cString buf) 0x07)
  let buffer ← ofFs fun _ => utoa arch userId (freshArray 25) 10
  onScreen (·.println (cString buffer) 0x07)

/-- What `strcat` appends to an unknown command. -/
def unknownText : CStr := cstr " is neither a known command nor valid AEF binary!"

/-- The shell that calls: `fuel` bounds the nested calls of `fs_delete`, and `subshell` is
    `shell_main` for the same user. -/
structure Caller where
  arch : Arch
  fuel : Nat
  userId : UInt64
  subshell : Kernel Nat

/-- The branch that is chosen; that of `eval` is taken before. -/
def runBuiltin (caller : Caller) (currentDir : Ptr) (f : Frame) :
    Builtin → Kernel (EvalResult × Ptr)
  | .ver => do
      print " " 0x07
      print "AurorOS" 0x07
      print " " 0x07
      println "Public Beta 6" 0x07
      return (.normal, currentDir)
  | .print => do
      onScreen (·.println (cString f.farg) 0x07)
      return (.normal, currentDir)
  | .cowsay => do
      shcCowsay (cString f.farg)
      return (.normal, currentDir)
  | .map => do
      shcMap caller.arch
      return (.normal, currentDir)
  | .clear => do
      onScreen (·.clearscreen)
      return (.normal, currentDir)
  | .reboot => do
      reboot
      return (.normal, currentDir)
  | .shutdown => do
      shutdown
      return (.normal, currentDir)
  | .eclair option => do
      shcEclair option
      return (.normal, currentDir)
  | .file command => do return (.normal, ← runCommand caller.fuel caller.userId currentDir command)
  | .help => do
      shcHelp
      return (.normal, currentDir)
  | .repo => do
      println "Visit this link on other device:" 0x07
      println "https://github.com/Interpuce/AurorOS" 0x07
      return (.normal, currentDir)
  | .sh => do
      if (← caller.subshell) = EvalResult.recursiveNormalExit.value then
        return (.recursiveNormalExit, currentDir)
      return (.normal, currentDir)
  | .exit => return (.exitShell, currentDir)
  | .logout => return (.recursiveNormalExit, currentDir)
  | .kptesting => return (.exitKernelMainLoop, currentDir)
  | .eval => return (.normal, currentDir)
  | .pwd => do
      let path ← ofFs (shcPwd · currentDir)
      onScreen (·.println path 0x07)
      return (.normal, currentDir)
  | .id => do
      printId caller.arch caller.userId
      return (.normal, currentDir)
  | .calc => do
      calculatorMain caller.arch
      return (.normal, currentDir)
  | .unknown => do
      -- `args[0]` is where the command's array begins
      let error ← ofFs fun _ => strcat f.command 0 unknownText
      onScreen (·.printError (cString error))
      return (.normal, currentDir)

/-- `command` is the array and `leftover` what the slots that are not filled hold in this call and
    in those that `eval` makes: `NULL`, or an address where a text is read.  The new current
    directory is returned, too. -/
def shellEvaluateCommand (caller : Caller) (leftover : Nat → Nat → Option CStr)
    (command : List UInt8) (currentDir : Ptr) : Kernel (EvalResult × Ptr) :=
  match framed : frame command with
  | .error fault => Program.stop (.fault fault)
  | .ok none => pure (.normal, currentDir)
  | .ok (some f) =>
      if _eval : (f.choice (leftover 0)).1 = .eval then
        shellEvaluateCommand caller (fun level => leftover (level + 1)) f.farg currentDir
      else runBuiltin caller currentDir f (f.choice (leftover 0)).1
termination_by (cString command).length
decreasing_by exact shorter_of_eval framed _eval

/-- A call that has come to its command: its frame, what it does and the slots it has read. -/
structure Invocation where
  frame : Frame
  builtin : Builtin
  read : List Nat

/-- The calls for a command, from the first to the innermost. -/
def invocations (leftover : Nat → Nat → Option CStr) (command : List UInt8) :
    Except Fault (List Invocation) :=
  match framed : frame command with
  | .error fault => .error fault
  | .ok none => .ok []
  | .ok (some f) =>
      let invocation : Invocation := ⟨f, (f.choice (leftover 0)).1, (f.choice (leftover 0)).2⟩
      if _eval : (f.choice (leftover 0)).1 = .eval then do
        return invocation :: (← invocations (fun level => leftover (level + 1)) f.farg)
      else .ok [invocation]
termination_by (cString command).length
decreasing_by exact shorter_of_eval framed _eval

end AurorOS.Shell
