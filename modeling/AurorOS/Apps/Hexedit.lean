import AurorOS.Shell.Kernel

/-! # The hex editor

`hexedit` shows a file's bytes as hexadecimal digits on the input line and writes
back what the edited line stands for.
-/

namespace AurorOS.Apps

open Fs Devices Shell

/-- The value of a digit, `0xFF` for any other character. -/
def hexCharToValue (c : UInt8) : UInt8 :=
  if c ≥ 48 ∧ c ≤ 57 then c - 48
  else
    let c := if c ≥ 65 ∧ c ≤ 70 then c + 32 else c
    if c ≥ 97 ∧ c ≤ 102 then c - 97 + 10 else 0xFF

def isHex (c : UInt8) : Bool := (c ≥ 48 ∧ c ≤ 57) ∨ (c ≥ 97 ∧ c ≤ 102) ∨ (c ≥ 65 ∧ c ≤ 70)

/-- The byte of two digits. -/
def hexByte (high low : UInt8) : UInt8 :=
  let hiVal := hexCharToValue high
  let loVal := hexCharToValue low
  if hiVal = 0xFF ∨ loVal = 0xFF then 0 else (hiVal <<< 4) ||| loVal

/-- The bytes stored to `out_bytes`, at most `max_bytes` of them. -/
def parseHexdumpToBytes : CStr → Nat → List UInt8
  | _, 0 => []
  | hexdump, left + 1 =>
      match hexdump.dropWhile (!isHex ·) with
      | [] => []
      | high :: rest =>
          match rest.dropWhile (!isHex ·) with
          -- a last digit on its own is followed by `'0'`
          | [] => [hexByte high 48]
          | low :: rest => hexByte high low :: parseHexdumpToBytes rest left

def hexChars : List UInt8 := cstr "0123456789ABCDEF"

/-- The loop of `print_hexdump` with what it has put out. -/
def hexdumpLoop (outputSize : Nat) : List UInt8 → List UInt8 → List UInt8
  | [], out => out
  | byte :: rest, out =>
      if out.length + 3 > outputSize then out
      else
        hexdumpLoop outputSize rest
          (out ++ [hexChars.getD ((byte >>> 4) &&& 0xF).toNat 0,
            hexChars.getD (byte &&& 0xF).toNat 0, 32])

/-- The text that is left in the output buffer: the terminator replaces the last blank. -/
def printHexdump (input : List UInt8) (outputSize : Nat) : CStr :=
  (hexdumpLoop outputSize input []).dropLast

/-- `malloc(0)` is `NULL`, so an empty file is not saved. -/
def hexeditSave (file : Ptr) (n : FsNode) (hexdumpModified : CStr) : Kernel Unit := do
  let parsedBytes ← malloc n.size
  if parsedBytes = 0 then return ()
  fsWrite file (parseHexdumpToBytes hexdumpModified n.size)

/-- `uint32_t` arithmetic. -/
def hexSize (n : FsNode) : Nat := (n.size * 3 + 1) % 2 ^ 32

/-- What `hexedit_main` does once it has checked the file. -/
def hexeditFile (file : Ptr) (n : FsNode) : Kernel Unit := do
  let hexdump ← malloc (hexSize n)
  let hexdumpModified ← malloc (hexSize n)
  if hexdump = 0 ∨ hexdumpModified = 0 then printError "Memory allocation failed."
  else
    let data ← ofFs (fileData · n)
    -- the size is cut to 16 bits for `read_str`
    let line ← readStr (freshArray (hexSize n)) (UInt16.ofNat (hexSize n)) false 0x08
      (printHexdump data (hexSize n))
    hexeditSave file n (cString line)
    printInfo "File saved successfully."

/-- `filename` is `none` where it is `NULL`, which `fs_resolve` reads from. -/
def hexeditMain (userid : UInt64) (filename : Option CStr) (currentDir : Ptr) : Kernel Unit := do
  match filename with
  | none => Program.stop (.fault .invalidAccess)
  | some path =>
      let file ← resolve path currentDir
      if file = 0 then printError "File not found."
      else
        let n ← deref file
        if n.type = .dir then printInfo "Is a directory."
        else if ¬ Writable userid n then printError "No write permissions."
        else hexeditFile file n

end AurorOS.Apps
