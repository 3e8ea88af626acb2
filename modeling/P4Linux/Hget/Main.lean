import Mathlib.Data.List.Induction
import P4Linux.Hget.Fetch

/-!
# hget.c: `main`

The options of the command line, and `fetch` with what they come to.

* `Opt`, `settings` -- the command line as its usage text has it: options with their words, and what a setting is,
  by the **last** option that names it;
* `main_iff` -- **every command line** fetches its first word that is no option, with the settings of the options
  before it; or it ends without a call to the kernel, and when it does which.
-/

namespace P4Linux.Hget

open Proc

/-! ## 1. The program -/

/-- `"/etc/ssl/certs/ca-certificates.crt"`. -/
def defaultCafile : List UInt8 :=
  [47, 101, 116, 99, 47, 115, 115, 108, 47, 99, 101, 114, 116, 115, 47, 99, 97, 45, 99, 101, 114, 116, 105, 102, 105,
    99, 97, 116, 101, 115, 46, 99, 114, 116]

/-- `"-o"`, `"-T"` and so on. -/
def oWord : List UInt8 := [45, 111]
def tWord : List UInt8 := [45, 84]
def cWord : List UInt8 := [45, 99]
def qWord : List UInt8 := [45, 113]
def kWord : List UInt8 := [45, 107]
def lWord : List UInt8 := [45, 76]
def nWord : List UInt8 := [45, 78]
def versionWord : List UInt8 := [45, 86]
def hWord : List UInt8 := [45, 104]
def helpWord : List UInt8 := [45, 45, 104, 101, 108, 112]

/-- The options and `outpath`. -/
structure Cmd where
  opt : Options
  quiet : Bool
  outpath : Option (List UInt8)

/-- The static initialisers. -/
def Cmd.start (hgetTls : Bool) : Cmd := ⟨⟨false, true, 30, defaultCafile, hgetTls⟩, false, none⟩

/-- `a[0] == '-' && a[1]`. -/
def isOption : List UInt8 → Bool
  | 45 :: _ :: _ => true
  | _ => false

/-- An option that takes the next argument. -/
def takesArg (cmd : Cmd) (a : List UInt8) : Option (List UInt8 → Cmd) :=
  if a = oWord then some fun b => { cmd with outpath := some b }
  else if a = tWord then some fun b => { cmd with opt := { cmd.opt with timeout := C.atoi b } }
  else if a = cWord then some fun b => { cmd with opt := { cmd.opt with cafile := b } }
  else none

/-- An option that is one word. -/
def flag (cmd : Cmd) (a : List UInt8) : Option Cmd :=
  if a = qWord then some { cmd with quiet := true }
  else if a = kWord then some { cmd with opt := { cmd.opt with insecure := true } }
  else if a = lWord then some { cmd with opt := { cmd.opt with follow := true } }
  else if a = nWord then some { cmd with opt := { cmd.opt with follow := false } }
  else none

/-- `-V`, `-h`, `--help` and unknown options end the program. -/
def quit (a : List UInt8) : Exit :=
  if a = versionWord then .ok else if a = hWord ∨ a = helpWord then .ok else .usage

/-- The loop over the arguments: an exit, or the options and the arguments from the first that is none. -/
def options (cmd : Cmd) : List (List UInt8) → Exit ⊕ (Cmd × List (List UInt8))
  | [] => .inr (cmd, [])
  | a :: rest =>
    if isOption a = false then .inr (cmd, a :: rest)
    else
      match takesArg cmd a, rest with
      | some set, b :: rest => options (set b) rest
      | _, rest =>
        match flag cmd a with
        | some cmd => options cmd rest
        | none => .inl (quit a)

variable {σ : Type} (k : Kernel σ) (tls : Tls (World σ))

def Options.positive (opt : Options) : Options := if opt.timeout ≤ 0 then { opt with timeout := 30 } else opt

/-- `main`, with the arguments after the program's name. -/
def main (hgetTls : Bool) (n : Nat) (hdrbuf : List UInt8) (args : List (List UInt8)) : Proc (World σ) Exit :=
  match options (.start hgetTls) args with
  | .inl e => pure e
  | .inr (_, []) => pure .usage
  | .inr (cmd, url :: _) => fetch ⟨k, tls, cmd.opt.positive⟩ n hdrbuf url cmd.outpath 0

/-! ## 2. The command line -/

inductive Opt where
  | o (file : List UInt8) | T (sec : List UInt8) | c (file : List UInt8) | q | k | L | N
  deriving DecidableEq, Repr

def Opt.words : Opt → List (List UInt8)
  | .o file => [oWord, file]
  | .T sec => [tWord, sec]
  | .c file => [cWord, file]
  | .q => [qWord]
  | .k => [kWord]
  | .L => [lWord]
  | .N => [nWord]

/-- What the last of the options that `f` knows says. -/
def lastOf {α : Type} (f : Opt → Option α) (opts : List Opt) : Option α := (opts.filterMap f).getLast?

def Opt.file? : Opt → Option (List UInt8)
  | .o file => some file
  | _ => none

def Opt.timeout? : Opt → Option Int
  | .T sec => some (C.atoi sec)
  | _ => none

def Opt.cafile? : Opt → Option (List UInt8)
  | .c file => some file
  | _ => none

def Opt.follow? : Opt → Option Bool
  | .L => some true
  | .N => some false
  | _ => none

/-- What options come to. -/
def settings (hgetTls : Bool) (opts : List Opt) : Cmd where
  opt :=
    { insecure := opts.contains .k
      follow := (lastOf Opt.follow? opts).getD true
      timeout := (lastOf Opt.timeout? opts).getD 30
      cafile := (lastOf Opt.cafile? opts).getD defaultCafile
      hgetTls := hgetTls }
  quiet := opts.contains .q
  outpath := lastOf Opt.file? opts

/-- An argument that looks like an option and is none, or lacks its argument. -/
def Stops (a : List UInt8) (rest : List (List UInt8)) : Prop :=
  isOption a = true ∧ a ∉ [qWord, kWord, lWord, nWord] ∧ (a ∈ [oWord, tWord, cWord] → rest = [])

/-- One option. -/
def Opt.apply (cmd : Cmd) : Opt → Cmd
  | .o file => { cmd with outpath := some file }
  | .T sec => { cmd with opt := { cmd.opt with timeout := C.atoi sec } }
  | .c file => { cmd with opt := { cmd.opt with cafile := file } }
  | .q => { cmd with quiet := true }
  | .k => { cmd with opt := { cmd.opt with insecure := true } }
  | .L => { cmd with opt := { cmd.opt with follow := true } }
  | .N => { cmd with opt := { cmd.opt with follow := false } }

theorem lastOf_append {α : Type} (f : Opt → Option α) (opts : List Opt) (o : Opt) :
    lastOf f (opts ++ [o]) = (f o).or (lastOf f opts) := by
  unfold lastOf
  cases h : f o with
  | none => simp [h]
  | some x => simp [h]

theorem settings_append (hgetTls : Bool) (opts : List Opt) (o : Opt) :
    settings hgetTls (opts ++ [o]) = o.apply (settings hgetTls opts) := by
  unfold settings
  simp only [lastOf_append]
  cases o <;> simp [Opt.apply, Opt.file?, Opt.timeout?, Opt.cafile?, Opt.follow?]

theorem foldl_apply (hgetTls : Bool) (opts : List Opt) :
    opts.foldl Opt.apply (.start hgetTls) = settings hgetTls opts := by
  induction opts using List.reverseRecOn with
  | nil => rfl
  | append_singleton opts o ih =>
    rw [List.foldl_append, ih, settings_append]
    rfl

theorem options_word (cmd : Cmd) (o : Opt) (rest : List (List UInt8)) :
    options cmd (o.words ++ rest) = options (o.apply cmd) rest := by
  cases o <;> rfl

theorem options_words (cmd : Cmd) (opts : List Opt) (rest : List (List UInt8)) :
    options cmd (opts.flatMap Opt.words ++ rest) = options (opts.foldl Opt.apply cmd) rest := by
  induction opts generalizing cmd with
  | nil => rfl
  | cons o opts ih =>
    rw [List.flatMap_cons, List.append_assoc, options_word, ih]
    rfl

theorem options_plain {cmd : Cmd} {a : List UInt8} (h : isOption a = false) (rest : List (List UInt8)) :
    options cmd (a :: rest) = .inr (cmd, a :: rest) := by
  unfold options
  rw [if_pos h]

theorem takesArg_none {cmd : Cmd} {a : List UInt8} (h : a ∉ [oWord, tWord, cWord]) : takesArg cmd a = none := by
  simp only [List.mem_cons, List.not_mem_nil, or_false, not_or] at h
  rw [takesArg, if_neg h.1, if_neg h.2.1, if_neg h.2.2]

theorem flag_none {cmd : Cmd} {a : List UInt8} (h : a ∉ [qWord, kWord, lWord, nWord]) : flag cmd a = none := by
  simp only [List.mem_cons, List.not_mem_nil, or_false, not_or] at h
  rw [flag, if_neg h.1, if_neg h.2.1, if_neg h.2.2.1, if_neg h.2.2.2]

theorem options_stops {cmd : Cmd} {a : List UInt8} {rest : List (List UInt8)} (h : Stops a rest) :
    options cmd (a :: rest) = .inl (quit a) := by
  obtain ⟨h1, h2, h3⟩ := h
  unfold options
  rw [if_neg (by rw [h1]; decide), flag_none h2]
  by_cases ha : a ∈ [oWord, tWord, cWord]
  · obtain rfl := h3 ha
    cases takesArg cmd a <;> rfl
  · rw [takesArg_none ha]

/-- **A command line** is options and what follows them: nothing, an argument that is no option, or one that
    stops. -/
theorem options_split : ∀ args : List (List UInt8), ∃ (opts : List Opt) (rest : List (List UInt8)), args = opts.flatMap Opt.words ++ rest ∧
    (rest = [] ∨ ∃ a tail, rest = a :: tail ∧ (isOption a = false ∨ Stops a tail))
  | [] => ⟨[], [], rfl, .inl rfl⟩
  | a :: rest => by
    by_cases ha : isOption a = false
    · exact ⟨[], a :: rest, rfl, .inr ⟨a, rest, rfl, .inl ha⟩⟩
    by_cases hf : a ∈ [qWord, kWord, lWord, nWord]
    · obtain ⟨opts, tail, he, ht⟩ := options_split rest
      simp only [List.mem_cons, List.not_mem_nil, or_false] at hf
      obtain rfl | rfl | rfl | rfl := hf
      · exact ⟨.q :: opts, tail, by rw [he]; rfl, ht⟩
      · exact ⟨.k :: opts, tail, by rw [he]; rfl, ht⟩
      · exact ⟨.L :: opts, tail, by rw [he]; rfl, ht⟩
      · exact ⟨.N :: opts, tail, by rw [he]; rfl, ht⟩
    by_cases hs : a ∈ [oWord, tWord, cWord] → rest = []
    · exact ⟨[], a :: rest, rfl, .inr ⟨a, rest, rfl, .inr ⟨by simpa using ha, hf, hs⟩⟩⟩
    obtain ⟨harg, hrest⟩ := Classical.not_imp.mp hs
    match rest, hrest with
    | b :: rest, _ =>
      obtain ⟨opts, tail, he, ht⟩ := options_split rest
      obtain rfl | rfl | rfl : a = oWord ∨ a = tWord ∨ a = cWord := by simpa using harg
      · exact ⟨.o b :: opts, tail, by rw [he]; rfl, ht⟩
      · exact ⟨.T b :: opts, tail, by rw [he]; rfl, ht⟩
      · exact ⟨.c b :: opts, tail, by rw [he]; rfl, ht⟩

/-! ## 3. What `main` does -/

variable {k : Kernel σ} {tls : Tls (World σ)}

/-- **What becomes of a command line**: the first argument that is no option is fetched, with what the options
    before it come to and a time limit that is positive; or nothing is fetched, and the world stays as it is. -/
theorem main_iff (hgetTls : Bool) (n : Nat) (hdrbuf : List UInt8) (args : List (List UInt8)) (w w' : World σ)
    (e : Exit) : Ends (main k tls hgetTls n hdrbuf args) w e w' ↔
      (∃ (opts : List Opt) (url : List UInt8) (rest : List (List UInt8)), args = opts.flatMap Opt.words ++ url :: rest ∧ isOption url = false ∧
        Ends (fetch ⟨k, tls, (settings hgetTls opts).opt.positive⟩ n hdrbuf url (settings hgetTls opts).outpath 0) w e
          w') ∨
      (∃ (opts : List Opt) (a : List UInt8) (rest : List (List UInt8)), args = opts.flatMap Opt.words ++ a :: rest ∧ Stops a rest ∧ e = quit a ∧ w' = w) ∨
      ∃ opts : List Opt, args = opts.flatMap Opt.words ∧ e = .usage ∧ w' = w := by
  have hend : ∀ {e' : Exit}, Ends (pure e' : Proc (World σ) Exit) w e w' ↔ e = e' ∧ w' = w := by
    intro e'
    rw [ends_pure]
    exact ⟨fun h => ⟨h.1.symm, h.2.symm⟩, fun h => ⟨h.1.symm, h.2.symm⟩⟩
  have hmain : ∀ opts rest, main k tls hgetTls n hdrbuf (opts.flatMap Opt.words ++ rest) =
      match options (settings hgetTls opts) rest with
      | .inl e => pure e
      | .inr (_, []) => pure .usage
      | .inr (cmd, url :: _) => fetch ⟨k, tls, cmd.opt.positive⟩ n hdrbuf url cmd.outpath 0 := by
    intro opts rest
    unfold main
    rw [options_words, foldl_apply]
  constructor
  · intro h
    obtain ⟨opts, rest, rfl, rfl | ⟨a, tail, rfl, ha | ha⟩⟩ := options_split args
    · rw [hmain] at h
      exact .inr (.inr ⟨opts, List.append_nil _, hend.mp h⟩)
    · rw [hmain, options_plain ha] at h
      exact .inl ⟨opts, a, tail, rfl, ha, h⟩
    · rw [hmain, options_stops ha] at h
      exact .inr (.inl ⟨opts, a, tail, rfl, ha, hend.mp h⟩)
  · rintro (⟨opts, url, rest, rfl, hu, h⟩ | ⟨opts, a, rest, rfl, ha, h⟩ | ⟨opts, rfl, h⟩)
    · rw [hmain, options_plain hu]
      exact h
    · rw [hmain, options_stops ha]
      exact hend.mpr h
    · rw [← List.append_nil (opts.flatMap Opt.words), hmain]
      exact hend.mpr h

end P4Linux.Hget
