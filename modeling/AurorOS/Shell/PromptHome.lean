import AurorOS.Shell.Commands

/-! # The home directory in the prompt

The prompt abbreviates the user's home directory to a tilde.  It compares characters, so
that a directory next to the home directory is taken for one below it if its name goes on
from there.
-/

namespace AurorOS.Shell

open Fs Devices

/-- The home directory of a user. -/
def homeOf (user : CStr) : CStr :=
  if user = cstr "root" then cstr "/root" else cstr "/home/" ++ user

def tilde : UInt8 := 126

/-- What is printed between the colon and the dollar sign. -/
def promptPath (user directory : CStr) : CStr :=
  let home := promptHome user
  let isMatch := home.isPrefixOf directory
  let below := directory.drop home.length
  let shown := if isMatch then (if below.head? = some slash then below.tail else below)
    else directory
  (if isMatch then [tilde] else []) ++ (if isMatch ∧ shown ≠ [] then [slash] else []) ++ shown

/-- A leading tilde stands for the home directory. -/
def expandTilde (home path : CStr) : CStr :=
  if path.head? = some tilde then home ++ path.tail else path

/-- A directory is the home directory or lies below it. -/
def AtOrBelow (home directory : CStr) : Prop := directory = home ∨ home ++ [slash] <+: directory

/-- The path in the prompt means the directory, and it has a tilde only in and below the home
    directory. -/
def NamesDirectory (user directory : CStr) : Prop :=
  expandTilde (homeOf user) (promptPath user directory) = directory ∧
    ((promptPath user directory).head? = some tilde → AtOrBelow (homeOf user) directory)

/-- The directory does not go on from the first 255 characters of the home directory's path; or it
    is that directory, of whose path at most a slash is missing in those; or it is another one
    below it, and the path has no more than those. -/
def PromptFits (user directory : CStr) : Prop :=
  ¬ (homeOf user).take 255 <+: directory ∨
    directory = homeOf user ∧ ((homeOf user).drop 255 = [] ∨ (homeOf user).drop 255 = [slash]) ∨
    (homeOf user).length ≤ 255 ∧ ∃ rest, rest ≠ [] ∧ directory = homeOf user ++ slash :: rest

variable {user directory home below : CStr}

theorem promptHome_eq (user : CStr) : promptHome user = (homeOf user).take 255 := by
  rw [promptHome, homeOf]
  split
  · rfl
  · rfl

/-- The prompt is the user, the machine and that path. -/
theorem shellPrintprefix_eq (user pcname directory : CStr) (s : Screen) :
    shellPrintprefix user pcname directory s =
      (((((s.print user 0x0B).print (cstr "@") 0x07).print pcname 0x0B).print (cstr ":") 0x07).print
        (promptPath user directory) 0x0B).print (cstr " $ ") 0x0F := by
  have append : ∀ (first second : CStr) (s : Screen), s.print (first ++ second) 0x0B =
      (s.print first 0x0B).print second 0x0B := fun first second s => List.foldl_append
  have choice : ∀ (c : Prop) [Decidable c] (str : CStr) (s : Screen),
      s.print (if c then str else []) 0x0B =
      if c then s.print str 0x0B else s :=
        fun c _ str s => apply_ite (fun str => s.print str 0x0B) c str []
  have sign : cstr "~" = [tilde] := rfl
  have separator : cstr "/" = [slash] := rfl
  unfold shellPrintprefix promptPath
  rw [append, append, choice, choice, sign, separator]

/-- What is shown behind the tilde when `below` is what follows the home directory in the path. -/
def behindTilde (below : CStr) : CStr :=
  if below = [] ∨ below = [slash] then [] else if below.head? = some slash then below
    else slash :: below

theorem promptPath_of_match (isMatch : directory = promptHome user ++ below) :
    promptPath user directory = tilde :: behindTilde below := by
  have isPrefix : (promptHome user).isPrefixOf directory = true := by
    rw [isMatch]
    exact List.isPrefixOf_iff_prefix.mpr (List.prefix_append _ _)
  have behind : directory.drop (promptHome user).length = below := by rw [isMatch, List.drop_left]
  unfold promptPath behindTilde
  simp only [isPrefix, behind, if_true, true_and]
  cases below with
  | nil => rfl
  | cons c rest =>
      by_cases separator : c = slash
      · subst separator
        cases rest with
        | nil => rfl
        | cons d rest => simp
      · simp [separator]

theorem promptPath_of_not_match (other : ¬ promptHome user <+: directory) :
    promptPath user directory = directory := by
  have noPrefix : (promptHome user).isPrefixOf directory = false := by
    rw [← Bool.not_eq_true, List.isPrefixOf_iff_prefix]
    exact other
  unfold promptPath
  simp [noPrefix]

/-- What is shown behind the tilde is what follows the home directory if that is nothing or goes on
    behind a slash; no characters in front of it make up for a difference, but for one slash that is
    not shown. -/
theorem append_behindTilde_iff (extra below : CStr) :
    extra ++ behindTilde below = below ↔
      extra = [] ∧ (below = [] ∨ ∃ rest, rest ≠ [] ∧ below = slash :: rest) ∨
        extra = [slash] ∧ below = [slash] := by
  have longer : ∀ c : UInt8, extra ++ c :: below ≠ below := fun c same => by
    have length := congrArg List.length same
    rw [List.length_append, List.length_cons] at length
    omega
  unfold behindTilde
  cases below with
  | nil => simp
  | cons c rest =>
      by_cases separator : c = slash
      · subst separator
        cases rest with
        | nil => simp
        | cons d rest => simp
      · have others : ¬ ((c :: rest = []) ∨ c :: rest = [slash]) := by simp [separator]
        rw [if_neg others, if_neg (by simpa using separator)]
        constructor
        · exact fun same => absurd same (longer slash)
        · simp [separator]

theorem homeOf_eq (user : CStr) : homeOf user = promptHome user ++ (homeOf user).drop 255 := by
  rw [promptHome_eq, List.take_append_drop]

/-- The path of a directory that goes on from the home directory's characters means it under the
    condition. -/
theorem expandTilde_iff_of_match (isMatch : directory = promptHome user ++ below) :
    expandTilde (homeOf user) (promptPath user directory) = directory ↔
      (homeOf user).drop 255 = [] ∧ (below = [] ∨ ∃ rest, rest ≠ [] ∧ below = slash :: rest) ∨
        (homeOf user).drop 255 = [slash] ∧ below = [slash] := by
  have expanded : expandTilde (homeOf user) (promptPath user directory) =
      promptHome user ++ ((homeOf user).drop 255 ++ behindTilde below) := by
    rw [promptPath_of_match isMatch, expandTilde, List.head?_cons, if_pos rfl,
      List.tail_cons, ← List.append_assoc, ← homeOf_eq]
  rw [expanded, isMatch, List.append_cancel_left_eq, append_behindTilde_iff]

theorem promptFits_iff_of_match (isMatch : directory = promptHome user ++ below) :
    PromptFits user directory ↔
      (homeOf user).drop 255 = [] ∧ (below = [] ∨ ∃ rest, rest ≠ [] ∧ below = slash :: rest) ∨
        (homeOf user).drop 255 = [slash] ∧ below = [slash] := by
  have isPrefix : (homeOf user).take 255 <+: directory := by
    rw [isMatch, promptHome_eq]
    exact List.prefix_append _ _
  have atHome : directory = homeOf user ↔ below = (homeOf user).drop 255 := by
    conv_lhs => rw [isMatch, homeOf_eq, List.append_cancel_left_eq]
  have short : (homeOf user).length ≤ 255 ↔ (homeOf user).drop 255 = [] := List.drop_eq_nil_iff.symm
  have further : ∀ rest, (homeOf user).drop 255 = [] →
      (directory = homeOf user ++ slash :: rest ↔ below = slash :: rest) := fun rest noMore => by
      rw [isMatch, homeOf_eq, noMore, List.append_nil, List.append_cancel_left_eq]
  rw [PromptFits, short, atHome]
  constructor
  · rintro (other | ⟨same, noMore | oneMore⟩ | ⟨noMore, rest, notEmpty, there⟩)
    · exact absurd isPrefix other
    · exact .inl ⟨noMore, .inl (same.trans noMore)⟩
    · exact .inr ⟨oneMore, same.trans oneMore⟩
    · exact .inl ⟨noMore, .inr ⟨rest, notEmpty, (further rest noMore).mp there⟩⟩
  · rintro (⟨noMore, none | ⟨rest, notEmpty, there⟩⟩ | ⟨oneMore, same⟩)
    · exact .inr (.inl ⟨none.trans noMore.symm, .inl noMore⟩)
    · exact .inr (.inr ⟨noMore, rest, notEmpty, (further rest noMore).mpr there⟩)
    · exact .inr (.inl ⟨same.trans oneMore.symm, .inr oneMore⟩)

theorem atOrBelow_of_promptFits (isPrefix : (homeOf user).take 255 <+: directory)
    (fits : PromptFits user directory) :
    AtOrBelow (homeOf user) directory := by
  rcases fits with other | ⟨same, -⟩ | ⟨-, rest, -, there⟩
  · exact absurd isPrefix other
  · exact .inl same
  · exact .inr ⟨rest, by rw [there, List.append_assoc, List.singleton_append]⟩

/-- The prompt shows a path, and for an absolute directory that path names it under exactly this
    condition. -/
theorem prompt_names_iff (user pcname directory : CStr) (s : Screen)
    (absolute : directory.head? = some slash) :
    shellPrintprefix user pcname directory s =
        (((((s.print user 0x0B).print (cstr "@") 0x07).print pcname 0x0B).print
          (cstr ":") 0x07).print (promptPath user directory) 0x0B).print (cstr " $ ") 0x0F ∧
      (NamesDirectory user directory ↔ PromptFits user directory) := by
  refine ⟨shellPrintprefix_eq user pcname directory s, ?_⟩
  by_cases isPrefix : (homeOf user).take 255 <+: directory
  · obtain ⟨below, isMatch⟩ := isPrefix
    rw [← promptHome_eq] at isMatch
    have expands := expandTilde_iff_of_match isMatch.symm
    have fits := promptFits_iff_of_match isMatch.symm
    constructor
    · rintro ⟨expanded, -⟩
      exact fits.mpr (expands.mp expanded)
    · intro fitting
      refine ⟨expands.mpr (fits.mp fitting), fun _ => atOrBelow_of_promptFits ?_ fitting⟩
      rw [← promptHome_eq, ← isMatch]
      exact List.prefix_append _ _
  · have verbatim : promptPath user directory = directory := by
      apply promptPath_of_not_match
      rw [promptHome_eq]
      exact isPrefix
    have noTilde : directory.head? ≠ some tilde := by
      rw [absolute]
      decide
    rw [NamesDirectory, verbatim, expandTilde, if_neg noTilde]
    constructor
    · exact fun _ => .inl isPrefix
    · exact fun _ => ⟨rfl, fun isTilde => absurd isTilde noTilde⟩

theorem prompt_names_iff_notes :
    shellPrintprefix (cstr "bob") (cstr "auror") (cstr "/home/bob/notes") ⟨fun _ => 0, 0⟩ =
        ((((((⟨fun _ => 0, 0⟩ : Screen).print (cstr "bob") 0x0B).print (cstr "@") 0x07).print
          (cstr "auror") 0x0B).print (cstr ":") 0x07).print
          (promptPath (cstr "bob") (cstr "/home/bob/notes")) 0x0B).print (cstr " $ ") 0x0F ∧
      (NamesDirectory (cstr "bob") (cstr "/home/bob/notes") ↔
      PromptFits (cstr "bob") (cstr "/home/bob/notes")) :=
  prompt_names_iff (cstr "bob") (cstr "auror") (cstr "/home/bob/notes") ⟨fun _ => 0, 0⟩ rfl

/-- The home directory of `bobby` is shown to `bob` as one below his own. -/
theorem prompt_not_names :
    promptPath (cstr "bob") (cstr "/home/bobby") = cstr "~/by" ∧
      ¬ ∀ user directory : CStr, directory.head? = some slash → NamesDirectory user directory := by
  refine ⟨by decide +kernel, fun names => ?_⟩
  obtain ⟨expanded, -⟩ := names (cstr "bob") (cstr "/home/bobby") rfl
  have other : expandTilde (homeOf (cstr "bob")) (promptPath (cstr "bob") (cstr "/home/bobby")) ≠
      cstr "/home/bobby" := by decide +kernel
  exact other expanded

end AurorOS.Shell
