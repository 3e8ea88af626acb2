import Mathlib.Logic.Function.Basic
import P4Linux.Lib.Worklist
import P4Linux.Vendor.Paths

/-!
# `src/bootloader/vendor/sync.py`: the headers

`main` from `ROOTS` and `EXTRA_HEADERS` on: the list of files still to read, what `resolve` answers
for each quoted include, and the copies below `vendor/include`. The two loops over `LD_FILES` and
`ROOTS` count here by what they report missing and what they queue; their copies go to `vendor/ld`
and `vendor/src` and are part of the tree the headers are copied into.

* `resolve`, `main` -- the script;
* `Reached`, `Wanted` -- the closure the script is to compute, and the headers it wants;
* `seen_iff` -- what was read when the script ends is that closure;
* `Vendors` -- every include finds the copy of the file `resolve` found for it;
* `sync_iff` -- the script ends, and it vendors exactly the `Consistent` trees;
* `drops_sibling` -- two sources, each with its own `x.h` beside it.
-/

namespace P4Linux.Vendor

/-! ## 1. The script -/

/-- Sources compiled into the bootloader. -/
def roots : List Path :=
  [path "esp_hal_regi2c/esp32p4/regi2c_impl.c", path "esp_hw_support/port/esp32p4/rtc_clk.c",
   path "hal/efuse_hal.c", path "hal/esp32p4/efuse_hal.c",
   path "esp_psram/device/esp_psram_impl_ap_hex.c",
   path "esp_hw_support/mspi/mspi_timing_tuning/mspi_timing_tuning.c",
   path "esp_hw_support/mspi/mspi_timing_tuning/tuning_scheme_impl/mspi_timing_by_dqs.c",
   path "esp_hw_support/mspi/mspi_timing_tuning/port/esp32p4/mspi_timing_config.c",
   path "hal/mmu_hal.c", path "hal/cache_hal.c", path "esp_hal_clock/esp32p4/clk_tree_hal.c"]

/-- Headers that nothing in the closure of `roots` reaches. -/
def extraHeaders : List Path :=
  [path "soc/regi2c_cpll.h", path "soc/regi2c_syspll.h", path "soc/regi2c_bias.h",
   path "hal/brownout_ll.h", path "hal/clk_tree_hal.h", path "esp_private/rtc_clk.h",
   path "hal/ldo_ll.h", path "soc/hp_system_reg.h", path "soc/gpio_reg.h", path "soc/emac_reg.h"]

/-- Linker scripts. -/
def ldFiles : List Path :=
  [path "esp_rom/esp32p4/ld/esp32p4.rom.eco0_4.ld", path "esp_rom/esp32p4/ld/esp32p4.rom.api.ld",
   path "soc/esp32p4/ld/esp32p4.peripherals.ld"]

/-- Where quoted includes are resolved from, in order. -/
def searchDirs : List Path :=
  [path "esp_hw_support/include", path "esp_hw_support/include/soc",
   path "esp_hw_support/port/include", path "esp_hw_support/port/esp32p4/include",
   path "esp_hw_support/ldo/include", path "spi_flash/include", path "esp_mm/include",
   path "esp_hw_support/mspi/mspi_timing_tuning/include",
   path "esp_hw_support/mspi/mspi_timing_tuning/tuning_scheme_impl/include",
   path "esp_hw_support/mspi/mspi_timing_tuning/port/esp32p4", path "esp_psram/include",
   path "esp_psram/device/include", path "hal/include", path "hal/esp32p4/include",
   path "hal/platform_port/include", path "esp_hal_regi2c/esp32p4/include",
   path "esp_hal_regi2c/include", path "riscv/include", path "esp_hal_pmu/esp32p4/include",
   path "esp_hal_pmu/include", path "esp_hal_wdt/esp32p4/include",
   path "esp_hal_clock/esp32p4/include", path "esp_hal_clock/include",
   path "esp_hal_gpio/esp32p4/include", path "esp_hal_gpio/include",
   path "esp_hal_mspi/esp32p4/include", path "esp_hal_mspi/include", path "esp_hal_gpspi/include",
   path "heap/include", path "esp_rom/include", path "esp_rom/esp32p4/include",
   path "esp_rom/esp32p4", path "esp_rom/esp32p4/include/esp32p4", path "esp_common/include",
   path "esp_system/include", path "log/include", path "soc/include", path "soc/esp32p4/include",
   path "soc/esp32p4/register/hw_ver1"]

/-- Headers we deliberately supply ourselves. -/
def provided : List Path := [path "sdkconfig.h", path "assert.h"]

/-- The lists of the script and the two directories it works between. -/
structure Script where
  roots : List Path
  extraHeaders : List Path
  ldFiles : List Path
  searchDirs : List Path
  provided : List Path
  components : Path
  outInc : Path

def syncPy (components outInc : Path) : Script :=
  { roots, extraHeaders, ldFiles, searchDirs, provided, components, outInc }

def isfile (t : Tree) (p : Path) : Bool := (t.file p).isSome

/-- One directory of the search list. -/
def candidate (t : Tree) (inc base : Path) : Option (Path × Option Path) :=
  if isfile t (join base inc) then some (join base inc, some inc) else none

/-- Find `inc` next to the including file first, then along `searchDirs`. -/
def resolve (t : Tree) (inc components : Path) (searchDirs : List Path) (curDir : Path) :
    Option (Path × Option Path) :=
  if isfile t (join curDir inc) then some (join curDir inc, none)
  else searchDirs.findSome? fun d => candidate t inc (join components d)

/-- What `resolve` answered for `inc`. -/
structure Header where
  inc : Path
  found : Path
  relname : Option Path

/-- `relname or inc`, the path the copy gets. -/
def Header.rel (h : Header) : Path := h.relname.getD h.inc

def look (S : Script) (t : Tree) (inc curDir : Path) : Option Header :=
  (resolve t inc S.components S.searchDirs curDir).map fun r => ⟨inc, r.1, r.2⟩

/-- What the loops carry on: `missing`, the keys of `taken_inc`, and the tree that is written. -/
structure State where
  missing : List Path
  taken : List Path
  out : Dest

def State.miss (st : State) (inc : Path) : State := { st with missing := st.missing ++ [inc] }

/-- The copy to `os.path.join(out_inc, rel)`. With an absolute `rel` that is the file itself, which
`copy2` refuses to copy onto itself. -/
def State.store (S : Script) (t : Tree) (st : State) (h : Header) : Except Raised State :=
  if isabs h.rel then .error .sameFile
  else do
    let dst := join S.outInc h.rel
    let out ← makedirs st.out (dirname dst)
    let out ← copy2 t h.found dst out
    .ok { st with taken := h.rel :: st.taken, out := out }

/-- The same, unless something was stored as `rel` before. -/
def State.take (S : Script) (t : Tree) (st : State) (h : Header) : Except Raised State :=
  if h.rel ∈ st.taken then .ok st else st.store S t h

/-- One round of the loop over `EXTRA_HEADERS`, with the queue so far. -/
def extra (S : Script) (t : Tree) (acc : List Path × State) (e : Path) :
    Except Raised (List Path × State) :=
  match look S t e S.components with
  | none => .ok (acc.1, acc.2.miss e)
  | some h => do
    let st ← acc.2.store S t h
    .ok (acc.1 ++ [h.found], st)

/-- `bytes.decode()` is content with it. -/
def utf8 (inc : Path) : Bool := ByteArray.validateUTF8 ⟨inc.toArray⟩

/-- One quoted include of a file in `curDir`, with what the file has queued so far. -/
def follow (S : Script) (t : Tree) (curDir : Path) (acc : List Path × State) (inc : Path) :
    Except Raised (List Path × State) :=
  if utf8 inc = false then .error .unicodeDecode
  else if inc ∈ S.provided then .ok acc
  else match look S t inc curDir with
    | none => .ok (acc.1, acc.2.miss inc)
    | some h => do
      let st ← acc.2.take S t h
      .ok (acc.1 ++ [h.found], st)

/-- One file of the queue that was not seen before. -/
def visit (S : Script) (t : Tree) (p : Path) (st : State) : Except Raised (List Path × State) :=
  match t.file p with
  | none => .error .notFound
  | some body => (quotedIncludes body).foldlM (follow S t (dirname p)) ([], st)

/-- The queue and the state when the work list starts. `before` is the tree that is written, with
`out_inc` emptied and the other two directories filled. -/
def seeds (S : Script) (t : Tree) (before : Dest) : Except Raised (List Path × State) :=
  let absent := fun p => !isfile t (join S.components p)
  let missing := S.ldFiles.filter absent ++ S.roots.filter absent
  let queue := (S.roots.map (join S.components)).filter (isfile t)
  S.extraHeaders.foldlM (extra S t) (queue, ⟨missing, [], before⟩)

/-- The script up to the manifest: what was seen, and the state at the end. -/
def main (S : Script) (t : Tree) (before : Dest) (fuel : Nat) :
    Option (Except Raised (List Path × State)) :=
  match seeds S t before with
  | .error e => some (.error e)
  | .ok (queue, st) => Worklist.run (visit S t) fuel queue.reverse [] st

variable {S : Script} {t : Tree} {before : Dest}

/-! ## 2. What the script is to compute -/

def includesOf (t : Tree) (p : Path) : List Path := ((t.file p).map quotedIncludes).getD []

/-- An include that `resolve` is asked for, with the directory it is asked from. -/
abbrev Request := Path × Path

def asks (S : Script) (curDir : Path) (incs : List Path) : List Request :=
  (incs.filter (· ∉ S.provided)).map (·, curDir)

def requestsOf (S : Script) (t : Tree) (p : Path) : List Request := asks S (dirname p) (includesOf t p)

def extraRequests (S : Script) : List Request := S.extraHeaders.map (·, S.components)

/-- The files the includes lead to: the roots, the extra headers, and whatever `resolve` finds for
an include of one of them. -/
inductive Reached (S : Script) (t : Tree) : Path → Prop where
  | root {r : Path} (hr : r ∈ S.roots) (hfile : isfile t (join S.components r)) :
      Reached S t (join S.components r)
  | extra {r : Request} {h : Header} (hr : r ∈ extraRequests S) (hlook : look S t r.1 r.2 = some h) :
      Reached S t h.found
  | header {p : Path} {r : Request} {h : Header} (hp : Reached S t p) (hr : r ∈ requestsOf S t p)
      (hlook : look S t r.1 r.2 = some h) : Reached S t h.found

/-- What `resolve` is asked for when the files in `P` are read. -/
def Asked (S : Script) (t : Tree) (P : Path → Prop) (r : Request) : Prop :=
  r ∈ extraRequests S ∨ ∃ p, P p ∧ r ∈ requestsOf S t p

/-- The headers it answers with. -/
def Wanted (S : Script) (t : Tree) (P : Path → Prop) (h : Header) : Prop :=
  ∃ r, Asked S t P r ∧ look S t r.1 r.2 = some h

/-- Where the copy for `rel` belongs. -/
def Script.place (S : Script) (rel : Path) : Location := location (join S.outInc rel)

/-- The directories on the way there. -/
def Script.onWay (S : Script) (rel : Path) : List Location := steps (dirname (join S.outInc rel))

/-- `h` is in the tree, at the path it is stored under. -/
def Copied (S : Script) (t : Tree) (out : Dest) (h : Header) : Prop :=
  ∃ body, t.file h.found = some body ∧ out (S.place h.rel) = .file body

/-- **Every include finds what `resolve` found for it**, in every file that was read; and no header
that was wanted is missing under its path. -/
structure Vendors (S : Script) (t : Tree) (seen : List Path) (st : State) : Prop where
  resolved : ∀ p ∈ seen, ∀ inc ∈ includesOf t p, inc ∉ S.provided → inc ∉ st.missing →
    ∃ h, look S t inc (dirname p) = some h ∧ Copied S t st.out h
  kept : ∀ h, Wanted S t (· ∈ seen) h → Copied S t st.out h

/-- The checkouts whose headers fit under the paths their includes spell: where two of them lead to
one place, one of the two found beside its includer or spelled in another way, they are the same
file; none lies where the way to another one leads, where a directory already is or behind a file;
and no include is absolute or not UTF-8. -/
structure Consistent (S : Script) (t : Tree) (before : Dest) : Prop where
  same : ∀ h h', Wanted S t (Reached S t) h → Wanted S t (Reached S t) h' →
    S.place h.rel = S.place h'.rel → h.relname = none ∨ h.rel ≠ h'.rel →
    t.file h.found = t.file h'.found
  apart : ∀ h h', Wanted S t (Reached S t) h → Wanted S t (Reached S t) h' →
    S.place h.rel ∉ S.onWay h'.rel
  free : ∀ h, Wanted S t (Reached S t) h → before (S.place h.rel) ≠ .dir
  way : ∀ h, Wanted S t (Reached S t) h → ∀ l ∈ S.onWay h.rel, ∀ body, before l ≠ .file body
  relative : ∀ h, Wanted S t (Reached S t) h → isabs h.rel = false
  decodes : ∀ p, Reached S t p → ∀ inc ∈ includesOf t p, utf8 inc = true

/-! ## 3. What `resolve` answers -/

theorem resolve_ok {inc components curDir : Path} {searchDirs : List Path} {r : Path × Option Path}
    (h : resolve t inc components searchDirs curDir = some r) :
    isfile t r.1 = true ∧ (r.2 = none ∨ r.2 = some inc ∧
      searchDirs.findSome? (fun d => candidate t inc (join components d)) = some r) := by
  unfold resolve at h
  split at h
  · cases h
    exact ⟨‹_›, .inl rfl⟩
  · obtain ⟨d, -, hd⟩ := List.exists_of_findSome?_eq_some h
    unfold candidate at hd
    split at hd
    · cases hd
      exact ⟨‹_›, .inr ⟨rfl, h⟩⟩
    · cases hd

theorem look_file {inc curDir : Path} {h : Header} (hlook : look S t inc curDir = some h) :
    ∃ body, t.file h.found = some body := by
  obtain ⟨r, hr, rfl⟩ := Option.map_eq_some_iff.mp hlook
  exact Option.isSome_iff_exists.mp (resolve_ok hr).1

/-- The copy keeps the path the source spelled, whichever of the two matched. -/
theorem look_rel {inc curDir : Path} {h : Header} (hlook : look S t inc curDir = some h) : h.rel = inc := by
  obtain ⟨r, hr, rfl⟩ := Option.map_eq_some_iff.mp hlook
  rcases (resolve_ok hr).2 with hnone | ⟨hsome, -⟩
  · exact congrArg (Option.getD · inc) hnone
  · exact congrArg (Option.getD · inc) hsome

/-- What the search list answers does not depend on who asks. -/
theorem look_list {inc curDir curDir' : Path} {h h' : Header} (hlook : look S t inc curDir = some h)
    (hlook' : look S t inc curDir' = some h') (hr : h.relname ≠ none) (hr' : h'.relname ≠ none) :
    h.found = h'.found := by
  obtain ⟨r, hres, rfl⟩ := Option.map_eq_some_iff.mp hlook
  obtain ⟨r', hres', rfl⟩ := Option.map_eq_some_iff.mp hlook'
  obtain ⟨-, hlist⟩ := (resolve_ok hres).2.resolve_left hr
  obtain ⟨-, hlist'⟩ := (resolve_ok hres').2.resolve_left hr'
  rw [hlist] at hlist'
  cases hlist'
  rfl

/-- Two headers for one place hold the same, however they were found. -/
theorem Consistent.agree (hc : Consistent S t before) {h h' : Header} (hw : Wanted S t (Reached S t) h)
    (hw' : Wanted S t (Reached S t) h') (hplace : S.place h.rel = S.place h'.rel) :
    t.file h.found = t.file h'.found := by
  by_cases hbeside : h.relname = none ∨ h.rel ≠ h'.rel
  · exact hc.same h h' hw hw' hplace hbeside
  · obtain ⟨hlist, hrel⟩ := not_or.mp hbeside
    rw [not_not] at hrel
    by_cases hbeside' : h'.relname = none
    · exact (hc.same h' h hw' hw hplace.symm (.inl hbeside')).symm
    · obtain ⟨r, -, hlook⟩ := hw
      obtain ⟨r', -, hlook'⟩ := hw'
      have hinc : r'.1 = r.1 := by rw [← look_rel hlook, ← look_rel hlook', hrel]
      rw [hinc] at hlook'
      rw [look_list hlook hlook' hlist hbeside']

/-! ## 4. One answer -/

/-- One answer of `resolve`, taken up: reported missing, there already, or copied. -/
inductive Answers (S : Script) (t : Tree) (r : Request) (acc : List Path × State) :
    List Path × State → Prop where
  | missed (hlook : look S t r.1 r.2 = none) : Answers S t r acc (acc.1, acc.2.miss r.1)
  | taken {h : Header} (hlook : look S t r.1 r.2 = some h) (ht : h.rel ∈ acc.2.taken) :
      Answers S t r acc (acc.1 ++ [h.found], acc.2)
  | stored {h : Header} {st : State} (hlook : look S t r.1 r.2 = some h)
      (hs : acc.2.store S t h = .ok st) : Answers S t r acc (acc.1 ++ [h.found], st)

theorem extra_answers {acc acc' : List Path × State} {e : Path} (h : extra S t acc e = .ok acc') :
    Answers S t (e, S.components) acc acc' := by
  unfold extra at h
  cases hlook : look S t e S.components with
  | none =>
    rw [hlook] at h
    cases h
    exact .missed hlook
  | some hd =>
    rw [hlook] at h
    obtain ⟨st, hst, h⟩ := bind_ok.mp h
    cases h
    exact .stored hlook hst

theorem follow_answers {curDir inc : Path} {acc acc' : List Path × State}
    (h : follow S t curDir acc inc = .ok acc') : utf8 inc = true ∧
      (inc ∈ S.provided ∧ acc' = acc ∨ inc ∉ S.provided ∧ Answers S t (inc, curDir) acc acc') := by
  unfold follow at h
  split at h
  · cases h
  · rename_i hutf
    refine ⟨by simpa using hutf, ?_⟩
    split at h
    · rename_i hp
      cases h
      exact .inl ⟨hp, rfl⟩
    · rename_i hp
      refine .inr ⟨hp, ?_⟩
      cases hlook : look S t inc curDir with
      | none =>
        rw [hlook] at h
        cases h
        exact .missed hlook
      | some hd =>
        rw [hlook] at h
        obtain ⟨st, hst, h⟩ := bind_ok.mp h
        cases h
        unfold State.take at hst
        split at hst
        · cases hst
          exact .taken hlook ‹_›
        · exact .stored hlook hst

/-- A copy that came through: no absolute path, no file on the way, and one file written. -/
theorem store_ok {st st' : State} {h : Header} (hs : st.store S t h = .ok st') :
    isabs h.rel = false ∧ (∀ l ∈ S.onWay h.rel, ∀ body, st.out l ≠ .file body) ∧
      ∃ l body, st.out.withDirs (S.onWay h.rel) l ≠ .dir ∧ st'.missing = st.missing ∧
        st'.taken = h.rel :: st.taken ∧
        st'.out = Function.update (st.out.withDirs (S.onWay h.rel)) l (.file body) := by
  unfold State.store at hs
  split at hs
  · cases hs
  · rename_i habs
    obtain ⟨mid, hmid, hs⟩ := bind_ok.mp hs
    obtain ⟨out, hout, hs⟩ := bind_ok.mp hs
    cases hs
    obtain ⟨hway, rfl⟩ := makedirs_ok.mp hmid
    obtain ⟨body, -, hdir, rfl⟩ := copy2_ok.mp hout
    exact ⟨by simpa using habs, hway, _, body, hdir, rfl, rfl, rfl⟩

/-- What lets a copy come through, and where it then is. -/
theorem store_place {st : State} {h : Header} {body : List UInt8} (hfile : t.file h.found = some body)
    (habs : isabs h.rel = false) (hway : ∀ l ∈ S.onWay h.rel, ∀ b, st.out l ≠ .file b)
    (hself : S.place h.rel ∉ S.onWay h.rel) (hdir : st.out (S.place h.rel) ≠ .dir) :
    st.store S t h = .ok { st with
      taken := h.rel :: st.taken
      out := Function.update (st.out.withDirs (S.onWay h.rel)) (S.place h.rel) (.file body) } := by
  have hfree : st.out.withDirs (S.onWay h.rel) (S.place h.rel) ≠ .dir := by
    rwa [withDirs_of_notMem hself]
  have hland : landing (st.out.withDirs (S.onWay h.rel)) h.found (join S.outInc h.rel) = S.place h.rel :=
    landing_of_not_dir hfree
  have hcopy : copy2 t h.found (join S.outInc h.rel) (st.out.withDirs (S.onWay h.rel)) =
      .ok (Function.update (st.out.withDirs (S.onWay h.rel)) (S.place h.rel) (.file body)) :=
    copy2_ok.mpr ⟨body, hfile, by rwa [hland], by rw [hland]⟩
  unfold State.store
  rw [if_neg (by simp [habs])]
  exact bind_ok.mpr ⟨_, makedirs_ok.mpr ⟨hway, rfl⟩, bind_ok.mpr ⟨_, hcopy, rfl⟩⟩

/-! ## 5. What a run that came through has done -/

/-- One more request. -/
def Also (A : Request → Prop) (r : Request) : Request → Prop := fun r' => A r' ∨ r' = r

/-- What the tree and the lists owe to the requests answered so far, whatever the checkout. -/
structure Made (S : Script) (t : Tree) (before : Dest) (A : Request → Prop) (st : State) : Prop where
  taken : ∀ r, A r → ∀ h, look S t r.1 r.2 = some h → h.rel ∈ st.taken
  missing : ∀ r, A r → look S t r.1 r.2 = none → r.1 ∈ st.missing
  relative : ∀ rel ∈ st.taken, isabs rel = false
  way : ∀ rel ∈ st.taken, ∀ l ∈ S.onWay rel, st.out l = .dir
  dirs : ∀ l, before l = .dir → st.out l = .dir
  files : ∀ l body, before l = .file body → ∃ body', st.out l = .file body'

theorem store_dir {st st' : State} {h : Header} (hs : st.store S t h = .ok st') :
    (∀ l, st.out l = .dir → st'.out l = .dir) ∧ (∀ l ∈ S.onWay h.rel, st'.out l = .dir) ∧
      ∀ l body, st.out l = .file body → ∃ body', st'.out l = .file body' := by
  obtain ⟨-, hway, l₀, body₀, hfree, -, -, hout⟩ := store_ok hs
  rw [hout]
  have hdir : ∀ l, st.out.withDirs (S.onWay h.rel) l = .dir →
      Function.update (st.out.withDirs (S.onWay h.rel)) l₀ (.file body₀) l = .dir := by
    intro l hl
    have hne : l ≠ l₀ := fun e => hfree (e ▸ hl)
    rw [Function.update_of_ne hne, hl]
  refine ⟨fun l hl => hdir l ?_, fun l hl => hdir l (withDirs_of_mem hl), fun l body hl => ?_⟩
  · by_cases hmem : l ∈ S.onWay h.rel
    · exact withDirs_of_mem hmem
    · rw [withDirs_of_notMem hmem, hl]
  · by_cases hl₀ : l = l₀
    · exact ⟨body₀, by rw [hl₀, Function.update_self]⟩
    · have hmem : l ∉ S.onWay h.rel := fun hmem => hway l hmem body hl
      exact ⟨body, by rw [Function.update_of_ne hl₀, withDirs_of_notMem hmem, hl]⟩

/-- **Step**: every answer is entered. -/
theorem Made.answer {A : Request → Prop} {r : Request} {acc acc' : List Path × State}
    (hm : Made S t before A acc.2) (ha : Answers S t r acc acc') : Made S t before (Also A r) acc'.2 := by
  cases ha with
  | missed hlook =>
    refine { hm with taken := ?_, missing := ?_ }
    · rintro r' (hr | rfl) h hh
      · exact hm.taken r' hr h hh
      · rw [hlook] at hh
        cases hh
    · rintro r' (hr | rfl) hh
      · exact List.mem_append_left _ (hm.missing r' hr hh)
      · exact List.mem_append_right _ List.mem_cons_self
  | taken hlook ht =>
    refine { hm with taken := ?_, missing := ?_ }
    · rintro r' (hr | rfl) h hh
      · exact hm.taken r' hr h hh
      · rw [hlook] at hh
        cases hh
        exact ht
    · rintro r' (hr | rfl) hh
      · exact hm.missing r' hr hh
      · rw [hlook] at hh
        cases hh
  | @stored hd st' hlook hs =>
    obtain ⟨hdirs, hway, hfiles⟩ := store_dir hs
    obtain ⟨habs, -, _, _, -, hmissing, htaken, -⟩ := store_ok hs
    refine ⟨?_, ?_, ?_, ?_, fun l hl => hdirs l (hm.dirs l hl), fun l body hl => ?_⟩
    · rintro r' (hr | rfl) h hh
      · exact htaken ▸ List.mem_cons_of_mem _ (hm.taken r' hr h hh)
      · rw [hlook] at hh
        cases hh
        exact htaken ▸ List.mem_cons_self
    · rintro r' (hr | rfl) hh
      · exact hmissing ▸ hm.missing r' hr hh
      · rw [hlook] at hh
        cases hh
    · intro rel hrel
      rcases List.mem_cons.mp (htaken ▸ hrel) with rfl | hrel
      · exact habs
      · exact hm.relative rel hrel
    · intro rel hrel l hl
      rcases List.mem_cons.mp (htaken ▸ hrel) with rfl | hrel
      · exact hway l hl
      · exact hdirs l (hm.way rel hrel l hl)
    · obtain ⟨body', hbody'⟩ := hm.files l body hl
      exact hfiles l body' hbody'

/-! ## 6. What a consistent checkout gives -/

/-- What is where, along a run over a consistent checkout: every header answered is in its place, and
nothing stands anywhere else but what stood there before. -/
structure Held (S : Script) (t : Tree) (before : Dest) (A : Request → Prop) (st : State) : Prop where
  held : ∀ r, A r → ∀ h, look S t r.1 r.2 = some h → Copied S t st.out h
  taken : ∀ rel ∈ st.taken, ∃ r, A r ∧ ∃ h, look S t r.1 r.2 = some h ∧ h.rel = rel
  dirs : ∀ l, st.out l = .dir → before l = .dir ∨
    ∃ h, Wanted S t (Reached S t) h ∧ l ∈ S.onWay h.rel
  files : ∀ l body, st.out l = .file body → (∃ body', before l = .file body') ∨
    ∃ h, Wanted S t (Reached S t) h ∧ S.place h.rel = l

/-- A header of a consistent checkout can be copied, and those copied before it stay what they are. -/
theorem Held.store (hc : Consistent S t before) {A : Request → Prop} {st : State}
    (hh : Held S t before A st) (hA : ∀ r, A r → Asked S t (Reached S t) r) {r : Request}
    (hr : Asked S t (Reached S t) r) {h : Header} (hlook : look S t r.1 r.2 = some h) :
    ∃ st', st.store S t h = .ok st' ∧ Held S t before (Also A r) st' := by
  have hw : Wanted S t (Reached S t) h := ⟨r, hr, hlook⟩
  obtain ⟨body, hfile⟩ := look_file hlook
  have hway : ∀ l ∈ S.onWay h.rel, ∀ b, st.out l ≠ .file b := by
    intro l hl b hb
    rcases hh.files l b hb with ⟨b', hb'⟩ | ⟨h', hw', rfl⟩
    · exact hc.way h hw l hl b' hb'
    · exact hc.apart h' h hw' hw hl
  have hdir : st.out (S.place h.rel) ≠ .dir := by
    intro hd
    rcases hh.dirs _ hd with hd | ⟨h', hw', hl⟩
    · exact hc.free h hw hd
    · exact hc.apart h h' hw hw' hl
  refine ⟨_, store_place hfile (hc.relative h hw) hway (hc.apart h h hw hw) hdir, ?_⟩
  refine ⟨?_, ?_, ?_, ?_⟩
  · rintro r' (hr' | rfl) h' hlook'
    · obtain ⟨body', hfile', hout'⟩ := hh.held r' hr' h' hlook'
      have hw' : Wanted S t (Reached S t) h' := ⟨r', hA r' hr', hlook'⟩
      refine ⟨body', hfile', ?_⟩
      by_cases hplace : S.place h'.rel = S.place h.rel
      · have hsame : t.file h'.found = t.file h.found := hc.agree hw' hw hplace
        rw [hfile', hfile] at hsame
        cases hsame
        show Function.update _ _ _ _ = _
        rw [hplace, Function.update_self]
      · have haway : S.place h'.rel ∉ S.onWay h.rel := hc.apart h' h hw' hw
        show Function.update _ _ _ _ = _
        rw [Function.update_of_ne hplace, withDirs_of_notMem haway, hout']
    · rw [hlook] at hlook'
      cases hlook'
      exact ⟨body, hfile, Function.update_self ..⟩
  · intro rel hrel
    rcases List.mem_cons.mp hrel with rfl | hrel
    · exact ⟨r, .inr rfl, h, hlook, rfl⟩
    · obtain ⟨r', hr', hrest⟩ := hh.taken rel hrel
      exact ⟨r', .inl hr', hrest⟩
  · intro l hl
    change Function.update (st.out.withDirs (S.onWay h.rel)) (S.place h.rel) (.file body) l = .dir at hl
    by_cases hplace : l = S.place h.rel
    · rw [hplace, Function.update_self] at hl
      cases hl
    · rw [Function.update_of_ne hplace] at hl
      by_cases hmem : l ∈ S.onWay h.rel
      · exact .inr ⟨h, hw, hmem⟩
      · rw [withDirs_of_notMem hmem] at hl
        exact hh.dirs l hl
  · intro l b hl
    change Function.update (st.out.withDirs (S.onWay h.rel)) (S.place h.rel) (.file body) l = .file b at hl
    by_cases hplace : l = S.place h.rel
    · exact .inr ⟨h, hw, hplace.symm⟩
    · rw [Function.update_of_ne hplace] at hl
      by_cases hmem : l ∈ S.onWay h.rel
      · rw [withDirs_of_mem hmem] at hl
        cases hl
      · rw [withDirs_of_notMem hmem] at hl
        exact hh.files l b hl

/-- A path that is taken already holds the same header. -/
theorem Held.again (hc : Consistent S t before) {A : Request → Prop} {st : State}
    (hh : Held S t before A st) (hA : ∀ r, A r → Asked S t (Reached S t) r) {r : Request}
    (hr : Asked S t (Reached S t) r) {h : Header} (hlook : look S t r.1 r.2 = some h)
    (ht : h.rel ∈ st.taken) : Held S t before (Also A r) st := by
  refine { hh with held := ?_, taken := fun rel hrel => ?_ }
  · rintro r' (hr' | rfl) h' hlook'
    · exact hh.held r' hr' h' hlook'
    · rw [hlook] at hlook'
      cases hlook'
      obtain ⟨r₀, hr₀, h₀, hlook₀, hrel⟩ := hh.taken h.rel ht
      obtain ⟨body, hfile, hout⟩ := hh.held r₀ hr₀ h₀ hlook₀
      have hsame := hc.agree ⟨r₀, hA r₀ hr₀, hlook₀⟩ ⟨r', hr, hlook⟩ (congrArg S.place hrel)
      exact ⟨body, hsame ▸ hfile, hrel ▸ hout⟩
  · obtain ⟨r', hr', hrest⟩ := hh.taken rel hrel
    exact ⟨r', .inl hr', hrest⟩

theorem Held.miss {A : Request → Prop} {st : State} (hh : Held S t before A st) {r : Request}
    (hlook : look S t r.1 r.2 = none) : Held S t before (Also A r) (st.miss r.1) := by
  refine { hh with held := ?_, taken := fun rel hrel => ?_ }
  · rintro r' (hr' | rfl) h' hlook'
    · exact hh.held r' hr' h' hlook'
    · rw [hlook] at hlook'
      cases hlook'
  · obtain ⟨r', hr', hrest⟩ := hh.taken rel hrel
    exact ⟨r', .inl hr', hrest⟩

/-! ## 7. The loops -/

/-- What an answer puts on the queue. -/
def answer (S : Script) (t : Tree) (r : Request) : Option Path := (look S t r.1 r.2).map Header.found

/-- What a file puts on the queue. -/
def next (S : Script) (t : Tree) (p : Path) : List Path := (requestsOf S t p).filterMap (answer S t)

/-- The requests of `A` and those in the list. -/
def upTo (A : Request → Prop) (l : List Request) : Request → Prop := fun r => A r ∨ r ∈ l

theorem upTo_nil {A : Request → Prop} : upTo A [] = A := by
  funext r
  simp [upTo]

theorem upTo_also {A : Request → Prop} {l : List Request} {r : Request} :
    Also (upTo A l) r = upTo A (l ++ [r]) := by
  funext r'
  simp [Also, upTo, or_assoc]

theorem asks_provided {curDir inc : Path} {incs : List Path} (h : inc ∈ S.provided) :
    asks S curDir (incs ++ [inc]) = asks S curDir incs := by
  simp [asks, h]

theorem asks_of_notMem {curDir inc : Path} {incs : List Path} (h : inc ∉ S.provided) :
    asks S curDir (incs ++ [inc]) = asks S curDir incs ++ [(inc, curDir)] := by
  simp [asks, h]

theorem asked_cons {a : Path} {seen : List Path} :
    Asked S t (· ∈ a :: seen) = upTo (Asked S t (· ∈ seen)) (requestsOf S t a) := by
  funext r
  simp [Asked, upTo, or_comm, or_left_comm]

theorem Answers.queue {r : Request} {acc acc' : List Path × State} (h : Answers S t r acc acc') :
    acc'.1 = acc.1 ++ [r].filterMap (answer S t) := by
  cases h with
  | missed hlook => simp [answer, hlook]
  | taken hlook _ => simp [answer, hlook]
  | stored hlook _ => simp [answer, hlook]

theorem seeds_ok {acc : List Path × State} (h : seeds S t before = .ok acc) :
    Made S t before (· ∈ extraRequests S) acc.2 ∧
      acc.1 = (S.roots.map (join S.components)).filter (isfile t) ++
        (extraRequests S).filterMap (answer S t) := by
  unfold seeds at h
  refine foldlM_prefix (I := fun done acc => Made S t before (· ∈ done.map (·, S.components)) acc.2 ∧
    acc.1 = (S.roots.map (join S.components)).filter (isfile t) ++
      (done.map (·, S.components)).filterMap (answer S t)) ?_ h ?_
  · rintro done e rest acc acc' - ⟨hm, hq⟩ he
    have ha := extra_answers he
    refine ⟨?_, ?_⟩
    · have hstep := hm.answer ha
      rw [List.map_append]
      convert hstep using 1
      funext r
      simp [Also]
    · rw [ha.queue, hq, List.map_append, List.filterMap_append, List.append_assoc]
      rfl
  · refine ⟨⟨?_, ?_, ?_, ?_, fun _ h => h, fun _ body h => ⟨body, h⟩⟩, ?_⟩
    · intro r hr
      cases hr
    · intro r hr
      cases hr
    · intro rel hrel
      cases hrel
    · intro rel hrel
      cases hrel
    · simp

theorem includesOf_some {p : Path} {body : List UInt8} (h : t.file p = some body) :
    includesOf t p = quotedIncludes body := by
  simp [includesOf, h]

/-- A file that was read decodes, and it queued what `resolve` found for its includes. -/
theorem visit_ok {p : Path} {st : State} {acc : List Path × State} (h : visit S t p st = .ok acc) :
    (∀ inc ∈ includesOf t p, utf8 inc = true) ∧ acc.1 = next S t p := by
  unfold visit at h
  cases hfile : t.file p with
  | none =>
    rw [hfile] at h
    cases h
  | some body =>
    rw [hfile] at h
    unfold next requestsOf
    rw [includesOf_some hfile]
    refine foldlM_prefix (I := fun done (acc : List Path × State) => (∀ inc ∈ done, utf8 inc = true) ∧
      acc.1 = (asks S (dirname p) done).filterMap (answer S t)) ?_ h ⟨fun _ hi => absurd hi List.not_mem_nil, rfl⟩
    rintro done inc rest acc acc' - ⟨hutf, hq⟩ hf
    obtain ⟨hinc, hcases⟩ := follow_answers hf
    constructor
    · intro i hi
      rcases List.mem_append.mp hi with hi | hi
      · exact hutf i hi
      · rwa [List.mem_singleton.mp hi]
    · rcases hcases with ⟨hp, rfl⟩ | ⟨hp, ha⟩
      · rw [asks_provided hp, hq]
      · rw [asks_of_notMem hp, List.filterMap_append, ← hq, ha.queue]

/-- Its requests are answered. -/
theorem Made.visit {A : Request → Prop} {p : Path} {st : State} {acc : List Path × State}
    (hm : Made S t before A st) (h : visit S t p st = .ok acc) :
    Made S t before (upTo A (requestsOf S t p)) acc.2 := by
  unfold Vendor.visit at h
  cases hfile : t.file p with
  | none =>
    rw [hfile] at h
    cases h
  | some body =>
    rw [hfile] at h
    unfold requestsOf
    rw [includesOf_some hfile]
    refine foldlM_prefix (I := fun done (acc : List Path × State) =>
      Made S t before (upTo A (asks S (dirname p) done)) acc.2) ?_ h ?_
    · rintro done inc rest acc acc' - hm hf
      rcases (follow_answers hf).2 with ⟨hp, rfl⟩ | ⟨hp, ha⟩
      · rwa [asks_provided hp]
      · rw [asks_of_notMem hp, ← upTo_also]
        exact hm.answer ha
    · show Made S t before (upTo A []) st
      rwa [upTo_nil]

/-- A file of a consistent checkout is read to its end. -/
theorem Held.visit (hc : Consistent S t before) {A : Request → Prop} {p : Path} {st : State}
    (hp : Reached S t p) (hfile : isfile t p = true) (hA : ∀ r, A r → Asked S t (Reached S t) r)
    (hh : Held S t before A st) :
    ∃ acc, visit S t p st = .ok acc ∧ Held S t before (upTo A (requestsOf S t p)) acc.2 := by
  obtain ⟨body, hbody⟩ := Option.isSome_iff_exists.mp hfile
  unfold Vendor.visit requestsOf
  rw [hbody, includesOf_some hbody]
  refine foldlM_progress (I := fun done (acc : List Path × State) =>
    Held S t before (upTo A (asks S (dirname p) done)) acc.2) ?_ ?_
  · intro done inc rest acc hl hh
    have hutf := hc.decodes p hp inc (by rw [includesOf_some hbody, hl]; simp)
    unfold follow
    rw [if_neg (by simp [hutf])]
    by_cases hprov : inc ∈ S.provided
    · rw [if_pos hprov, asks_provided hprov]
      exact ⟨_, rfl, hh⟩
    · rw [if_neg hprov, asks_of_notMem hprov, ← upTo_also]
      have hasked : ∀ r ∈ asks S (dirname p) (done ++ [inc]), Asked S t (Reached S t) r := by
        intro r hr
        refine .inr ⟨p, hp, ?_⟩
        unfold requestsOf
        rw [includesOf_some hbody, hl]
        have hsplit : done ++ inc :: rest = done ++ [inc] ++ rest := by simp
        rw [hsplit]
        unfold asks at hr ⊢
        rw [List.filter_append, List.map_append]
        exact List.mem_append_left _ hr
      rw [asks_of_notMem hprov] at hasked
      have hupTo : ∀ r, upTo A (asks S (dirname p) done) r → Asked S t (Reached S t) r := by
        rintro r (hr | hr)
        · exact hA r hr
        · exact hasked r (List.mem_append_left _ hr)
      have hlast := hasked (inc, dirname p) (List.mem_append_right _ List.mem_cons_self)
      cases hlook : look S t inc (dirname p) with
      | none => exact ⟨_, rfl, hh.miss hlook⟩
      | some h =>
        by_cases ht : h.rel ∈ acc.2.taken
        · have htake : acc.2.take S t h = .ok acc.2 := if_pos ht
          exact ⟨_, bind_ok.mpr ⟨_, htake, rfl⟩, hh.again hc hupTo hlast hlook ht⟩
        · obtain ⟨st', hst', hh'⟩ := hh.store hc hupTo hlast hlook
          have htake : acc.2.take S t h = .ok st' := (if_neg ht).trans hst'
          exact ⟨_, bind_ok.mpr ⟨_, htake, rfl⟩, hh'⟩
  · show Held S t before (upTo A []) st
    rwa [upTo_nil]

theorem Held.seeds (hc : Consistent S t before) :
    ∃ acc, seeds S t before = .ok acc ∧ Held S t before (· ∈ extraRequests S) acc.2 := by
  unfold Vendor.seeds
  refine foldlM_progress (I := fun done (acc : List Path × State) =>
    Held S t before (· ∈ done.map (·, S.components)) acc.2) ?_ ?_
  · intro done e rest acc hl hh
    have hasked : ∀ r ∈ (done ++ [e]).map (·, S.components), Asked S t (Reached S t) r := by
      intro r hr
      refine .inl ?_
      have hsplit : done ++ e :: rest = done ++ [e] ++ rest := by simp
      unfold extraRequests
      rw [hl, hsplit, List.map_append]
      exact List.mem_append_left _ hr
    rw [List.map_append] at hasked ⊢
    have hdone : ∀ r ∈ done.map (·, S.components), Asked S t (Reached S t) r := fun r hr =>
      hasked r (List.mem_append_left _ hr)
    have hlast := hasked (e, S.components) (List.mem_append_right _ List.mem_cons_self)
    have hset : (· ∈ done.map (·, S.components) ++ [e].map (·, S.components)) =
        Also (· ∈ done.map (·, S.components)) (e, S.components) := by
      funext r
      simp [Also]
    rw [hset]
    unfold extra
    cases hlook : look S t e S.components with
    | none => exact ⟨_, rfl, hh.miss hlook⟩
    | some h =>
      obtain ⟨st', hst', hh'⟩ := hh.store hc hdone hlast hlook
      exact ⟨_, bind_ok.mpr ⟨_, hst', rfl⟩, hh'⟩
  · refine ⟨?_, ?_, fun _ h => .inl h, fun _ body h => .inl ⟨body, h⟩⟩
    · intro r hr
      cases hr
    · intro rel hrel
      cases hrel

/-! ## 8. The script -/

theorem main_error {e : Raised} {n : Nat} (h : seeds S t before = .error e) :
    main S t before n = some (.error e) := by
  unfold main
  rw [h]

theorem main_run {acc : List Path × State} {n : Nat} (h : seeds S t before = .ok acc) :
    main S t before n = Worklist.run (visit S t) n acc.1.reverse [] acc.2 := by
  unfold main
  rw [h]

theorem isfile_found {r : Request} {b : Path} (h : answer S t r = some b) : isfile t b = true := by
  obtain ⟨hd, hlook, rfl⟩ := Option.map_eq_some_iff.mp h
  exact Option.isSome_iff_exists.mpr (look_file hlook)

/-- What the queue starts with, and what every visit adds to it, are files the includes lead to. -/
theorem reached_seeds {acc : List Path × State} (h : seeds S t before = .ok acc) {p : Path}
    (hp : p ∈ acc.1) : Reached S t p ∧ isfile t p = true := by
  rw [(seeds_ok h).2] at hp
  rcases List.mem_append.mp hp with hp | hp
  · obtain ⟨hmem, hfile⟩ := List.mem_filter.mp hp
    obtain ⟨r, hr, rfl⟩ := List.mem_map.mp hmem
    exact ⟨.root hr hfile, hfile⟩
  · obtain ⟨r, hr, hans⟩ := List.mem_filterMap.mp hp
    obtain ⟨hd, hlook, hfound⟩ := Option.map_eq_some_iff.mp hans
    exact ⟨hfound ▸ .extra hr hlook, isfile_found hans⟩

theorem reached_next {p b : Path} (hp : Reached S t p) (hb : b ∈ next S t p) :
    Reached S t b ∧ isfile t b = true := by
  obtain ⟨r, hr, hans⟩ := List.mem_filterMap.mp hb
  obtain ⟨hd, hlook, hfound⟩ := Option.map_eq_some_iff.mp hans
  exact ⟨hfound ▸ .header hp hr hlook, isfile_found hans⟩

/-- **The script ends**: it visits each of the finitely many files once. -/
theorem main_ends (S : Script) (t : Tree) (before : Dest) :
    ∃ n r, ∀ m, n ≤ m → main S t before m = some r := by
  cases hs : seeds S t before with
  | error e => exact ⟨0, _, fun m _ => main_error hs⟩
  | ok acc =>
    have hvisit : ∀ p ∈ t.paths, ∀ st acc, visit S t p st = .ok acc → ∀ b ∈ acc.1, b ∈ t.paths := by
      intro p _ st acc hv b hb
      rw [(visit_ok hv).2] at hb
      obtain ⟨r, -, hans⟩ := List.mem_filterMap.mp hb
      exact Tree.mem_paths (isfile_found hans)
    have hstack : ∀ p ∈ acc.1.reverse, p ∈ t.paths := fun p hp =>
      Tree.mem_paths (reached_seeds hs (List.mem_reverse.mp hp)).2
    have hrun : ∃ n r, Worklist.run (visit S t) n acc.1.reverse [] acc.2 = some r :=
      Worklist.run_ends hvisit hstack
    obtain ⟨n, r, hr⟩ := hrun
    exact ⟨n, r, fun m hm => by rw [main_run hs, Worklist.run_mono hr hm]⟩

section Ended

variable {n : Nat} {seen : List Path} {st : State}

theorem main_ok (h : main S t before n = some (.ok (seen, st))) : ∃ acc, seeds S t before = .ok acc ∧
    Worklist.run (visit S t) n acc.1.reverse [] acc.2 = some (.ok (seen, st)) := by
  cases hs : seeds S t before with
  | error e =>
    rw [main_error hs] at h
    cases h
  | ok acc => exact ⟨acc, rfl, main_run hs ▸ h⟩

theorem asked_nil : Asked S t (· ∈ []) = (· ∈ extraRequests S) := by
  funext r
  simp [Asked]

/-- **Run**: whatever the checkout, every request of what was read is answered. -/
theorem main_made (h : main S t before n = some (.ok (seen, st))) :
    Made S t before (Asked S t (· ∈ seen)) st ∧
      ∀ p ∈ seen, Reached S t p ∧ ∀ inc ∈ includesOf t p, utf8 inc = true := by
  obtain ⟨acc, hs, hrun⟩ := main_ok h
  refine Worklist.run_keeps (P := Reached S t) (I := fun seen st => Made S t before (Asked S t (· ∈ seen)) st ∧
    ∀ p ∈ seen, Reached S t p ∧ ∀ inc ∈ includesOf t p, utf8 inc = true) ?_ ?_ hrun ?_ ⟨?_, ?_⟩
  · intro p hp st acc hv b hb
    rw [(visit_ok hv).2] at hb
    exact (reached_next hp hb).1
  · rintro p seen st acc hp ⟨hm, hseen⟩ hv
    rw [asked_cons]
    refine ⟨hm.visit hv, fun q hq => ?_⟩
    rcases List.mem_cons.mp hq with rfl | hq
    · exact ⟨hp, (visit_ok hv).1⟩
    · exact hseen q hq
  · exact fun p hp => (reached_seeds hs (List.mem_reverse.mp hp)).1
  · rw [asked_nil]
    exact (seeds_ok hs).1
  · intro p hp
    cases hp

/-- **What was read is the closure of the includes.** -/
theorem seen_iff (h : main S t before n = some (.ok (seen, st))) (p : Path) : p ∈ seen ↔ Reached S t p := by
  refine ⟨fun hp => ((main_made h).2 p hp).1, fun hp => ?_⟩
  obtain ⟨acc, hs, hrun⟩ := main_ok h
  have hstack : ∀ p ∈ acc.1, p ∈ seen := fun p hp =>
    (Worklist.run_all hrun).2 p (List.mem_reverse.mpr hp)
  rw [(seeds_ok hs).2] at hstack
  induction hp with
  | @root r hr hfile =>
    exact hstack _ (List.mem_append_left _ (List.mem_filter.mpr ⟨List.mem_map_of_mem hr, hfile⟩))
  | @extra r hd hr hlook =>
    refine hstack _ (List.mem_append_right _ (List.mem_filterMap.mpr ⟨r, hr, ?_⟩))
    exact Option.map_eq_some_iff.mpr ⟨hd, hlook, rfl⟩
  | @header p r hd hp hr hlook ih =>
    have hnext : ∀ q st acc, visit S t q st = .ok acc → acc.1 = next S t q := fun _ _ _ hv => (visit_ok hv).2
    have hclosed := Worklist.run_closed (a := p) hnext hrun
    refine (hclosed ih).resolve_left List.not_mem_nil _ (List.mem_filterMap.mpr ⟨r, hr, ?_⟩)
    exact Option.map_eq_some_iff.mpr ⟨hd, hlook, rfl⟩

theorem seen_eq (h : main S t before n = some (.ok (seen, st))) : (· ∈ seen) = Reached S t :=
  funext fun p => propext (seen_iff h p)

/-- A tree that was vendored was consistent. -/
theorem Vendors.consistent (h : main S t before n = some (.ok (seen, st))) (hv : Vendors S t seen st) :
    Consistent S t before := by
  obtain ⟨hm, hseen⟩ := main_made h
  have hkept := hv.kept
  rw [seen_eq h] at hm hkept
  have htaken : ∀ hd, Wanted S t (Reached S t) hd → hd.rel ∈ st.taken := by
    rintro hd ⟨r, hr, hlook⟩
    exact hm.taken r hr hd hlook
  refine ⟨?_, ?_, ?_, ?_, fun hd hw => hm.relative _ (htaken hd hw), ?_⟩
  · intro hd hd' hw hw' hplace _
    obtain ⟨body, hfile, hout⟩ := hkept hd hw
    obtain ⟨body', hfile', hout'⟩ := hkept hd' hw'
    rw [hplace, hout'] at hout
    cases hout
    rw [hfile, hfile']
  · intro hd hd' hw hw' hmem
    obtain ⟨body, -, hout⟩ := hkept hd hw
    rw [hm.way _ (htaken hd' hw') _ hmem] at hout
    cases hout
  · intro hd hw hdir
    obtain ⟨body, -, hout⟩ := hkept hd hw
    rw [hm.dirs _ hdir] at hout
    cases hout
  · intro hd hw l hl body hbody
    obtain ⟨body', hout⟩ := hm.files l body hbody
    rw [hm.way _ (htaken hd hw) l hl] at hout
    cases hout
  · intro p hp
    exact (hseen p ((seen_iff h p).mpr hp)).2

end Ended

/-- A consistent tree is vendored. -/
theorem Consistent.vendors (hc : Consistent S t before) {n : Nat} {r : Except Raised (List Path × State)}
    (h : main S t before n = some r) : ∃ seen st, r = .ok (seen, st) ∧ Vendors S t seen st := by
  obtain ⟨acc, hs, hheld⟩ := Held.seeds hc
  have hrun := main_run hs ▸ h
  have hclosed : ∀ p, Reached S t p ∧ isfile t p = true → ∀ st acc, visit S t p st = .ok acc →
      ∀ b ∈ acc.1, Reached S t b ∧ isfile t b = true := by
    intro p hp st acc hv b hb
    rw [(visit_ok hv).2] at hb
    exact reached_next hp.1 hb
  have hstep : ∀ p seen st, Reached S t p ∧ isfile t p = true →
      Held S t before (Asked S t (· ∈ seen)) st ∧ (∀ q ∈ seen, Reached S t q) →
      ∃ acc, visit S t p st = .ok acc ∧ Held S t before (Asked S t (· ∈ p :: seen)) acc.2 ∧
        ∀ q ∈ p :: seen, Reached S t q := by
    rintro p seen st ⟨hp, hfile⟩ ⟨hh, hseen⟩
    have hA : ∀ r, Asked S t (· ∈ seen) r → Asked S t (Reached S t) r := by
      rintro r (hr | ⟨q, hq, hr⟩)
      · exact .inl hr
      · exact .inr ⟨q, hseen q hq, hr⟩
    obtain ⟨acc, hv, hnext⟩ := hh.visit hc hp hfile hA
    refine ⟨acc, hv, asked_cons ▸ hnext, fun q hq => ?_⟩
    rcases List.mem_cons.mp hq with rfl | hq
    · exact hp
    · exact hseen q hq
  have hstack : ∀ p ∈ acc.1.reverse, Reached S t p ∧ isfile t p = true := fun p hp =>
    reached_seeds hs (List.mem_reverse.mp hp)
  obtain ⟨⟨seen, st⟩, rfl, hh, -⟩ := Worklist.run_ok
    (I := fun seen st => Held S t before (Asked S t (· ∈ seen)) st ∧ ∀ q ∈ seen, Reached S t q)
    hclosed hstep hrun hstack ⟨asked_nil ▸ hheld, fun _ hq => absurd hq List.not_mem_nil⟩
  refine ⟨seen, st, rfl, fun p hp inc hinc hprov hmiss => ?_, ?_⟩
  · have hasked : Asked S t (· ∈ seen) (inc, dirname p) :=
      .inr ⟨p, hp, List.mem_map.mpr ⟨inc, List.mem_filter.mpr ⟨hinc, by simpa using hprov⟩, rfl⟩⟩
    cases hlook : look S t inc (dirname p) with
    | none => exact absurd ((main_made h).1.missing _ hasked hlook) hmiss
    | some hd => exact ⟨hd, rfl, hh.held _ hasked hd hlook⟩
  · rintro hd ⟨r, hr, hlook⟩
    exact hh.held r hr hd hlook

/-- **The script ends, and what it leaves is what the includes find in the checkout exactly when the
checkout is consistent.** -/
theorem sync_iff (S : Script) (t : Tree) (before : Dest) :
    ∃ n r, (∀ m, n ≤ m → main S t before m = some r) ∧
      ((∃ seen st, r = .ok (seen, st) ∧ Vendors S t seen st) ↔ Consistent S t before) := by
  obtain ⟨n, r, hr⟩ := main_ends S t before
  refine ⟨n, r, hr, ?_, fun hc => hc.vendors (hr n (Nat.le_refl n))⟩
  rintro ⟨seen, st, rfl, hv⟩
  exact hv.consistent (hr n (Nat.le_refl n))

/-- Two sources with a header of their own beside each. -/
def siblings : Tree := ⟨[
  (path "/idf/components/hal/efuse_hal.c", path "#include \"x.h\"\n"),
  (path "/idf/components/hal/x.h", path "#define REG 1\n"),
  (path "/idf/components/hal/esp32p4/efuse_hal.c", path "#include \"x.h\"\n"),
  (path "/idf/components/hal/esp32p4/x.h", path "#define REG 2\n")]⟩

/-- An empty `vendor/include`. -/
def emptied : Dest := Dest.withDirs (fun _ => .absent) (steps (path "/p4/vendor/include"))

/-- Both are read, neither is reported missing, and the header beside `hal/efuse_hal.c` is not the
one that is stored. -/
theorem drops_sibling : ∃ seen st,
    main (syncPy (path "/idf/components") (path "/p4/vendor/include")) siblings emptied 10 =
      some (.ok (seen, st)) ∧
    ¬ Vendors (syncPy (path "/idf/components") (path "/p4/vendor/include")) siblings seen st := by
  have hrun : (main (syncPy (path "/idf/components") (path "/p4/vendor/include")) siblings emptied 10).any
      (fun r => r.toOption.any fun q => decide (path "/idf/components/hal/efuse_hal.c" ∈ q.1 ∧
        path "x.h" ∉ q.2.missing ∧
        q.2.out (location (path "/p4/vendor/include/x.h")) = .file (path "#define REG 2\n"))) = true := by
    decide +kernel
  have hlook : (look (syncPy (path "/idf/components") (path "/p4/vendor/include")) siblings (path "x.h")
      (dirname (path "/idf/components/hal/efuse_hal.c"))).map (fun h => (h.rel, siblings.file h.found)) =
      some (path "x.h", some (path "#define REG 1\n")) := by
    decide +kernel
  obtain ⟨r, hr, hany⟩ := (Option.any_eq_true ..).mp hrun
  obtain ⟨⟨seen, st⟩, rfl, hq⟩ := exists_ok hany
  obtain ⟨hseen, hmiss, hout⟩ := of_decide_eq_true hq
  refine ⟨seen, st, hr, fun hv => ?_⟩
  obtain ⟨h, hh, body, hfile, hcopy⟩ :=
    hv.resolved _ hseen (path "x.h") (by decide +kernel) (by decide +kernel) hmiss
  rw [hh] at hlook
  have hfound : h.rel = path "x.h" ∧ siblings.file h.found = some (path "#define REG 1\n") := by
    simpa using hlook
  obtain ⟨hrel, hbody⟩ := hfound
  rw [hbody] at hfile
  cases hfile
  have hplace : (syncPy (path "/idf/components") (path "/p4/vendor/include")).place h.rel =
      location (path "/p4/vendor/include/x.h") := by
    rw [hrel]
    decide +kernel
  rw [hplace, hout] at hcopy
  exact absurd hcopy (by decide +kernel)

end P4Linux.Vendor
