import Mathlib.Data.List.Nodup
import P4Linux.Cpio.Tar

/-!
# Whether a conversion keeps the files

* `pathOf`, `HasContent`, `Carries` -- the path and the content of a member, and a record that is its record;
* `Keeps` -- each member has exactly one;
* `members_source`, `members_first` -- what the loop writes: the first member of each stripped name;
* `main_keeps_iff` -- **a conversion keeps the files** if and only if each member is `Sound`.
-/

namespace P4Linux.Cpio

/-! ## 1. Members and their records -/

/-- The name with a leading `./` or `/` removed; of a `./` that is all there is `tarfile` has taken the
    slash. -/
def pathOf : List UInt8 → List UInt8
  | 46 :: 47 :: s => s
  | 47 :: s => s
  | [46] => []
  | s => s

def Kind.listed : Kind → Bool
  | .other _ => false
  | _ => true

/-- The type bits of a member; a hard link is the file it links to. -/
def typeBits : Kind → Int
  | .dir => sIfdir
  | .sym _ => sIflnk
  | .reg _ => sIfreg
  | .chr _ _ => sIfchr
  | .blk _ _ => sIfblk
  | .fifo => sIfifo
  | .lnk _ => sIfreg
  | .other _ => 0

/-- **The content of a member**: a hard link has that of the file at its path. -/
inductive HasContent (t : Tar) : TarInfo → List UInt8 → Prop
  | reg {m : TarInfo} {data : List UInt8} : m.kind = .reg data → HasContent t m data
  | sym {m : TarInfo} {linkname : List UInt8} : m.kind = .sym linkname → HasContent t m linkname
  | lnk {m target : TarInfo} {linkname data : List UInt8} : m.kind = .lnk linkname → target ∈ t.members →
      pathOf target.name = pathOf linkname →
      (∃ d, target.kind = .reg d) ∨ (∃ l, target.kind = .lnk l) → HasContent t target data → HasContent t m data
  | dir {m : TarInfo} : m.kind = .dir → HasContent t m []
  | chr {m : TarInfo} {devmajor devminor : Int} : m.kind = .chr devmajor devminor → HasContent t m []
  | blk {m : TarInfo} {devmajor devminor : Int} : m.kind = .blk devmajor devminor → HasContent t m []
  | fifo {m : TarInfo} : m.kind = .fifo → HasContent t m []

/-- The numbers of a device. -/
def devOf : Kind → Int × Int
  | .chr devmajor devminor => (devmajor, devminor)
  | .blk devmajor devminor => (devmajor, devminor)
  | _ => (0, 0)

/-- The record of a member. -/
structure Carries (t : Tar) (m : TarInfo) (e : Entry) : Prop where
  name : e.name = pathOf m.name
  type : Int.land e.mode 0o170000 = typeBits m.kind
  perm : Int.land e.mode 0o7777 = Int.land m.mode 0o7777
  uid : e.uid = m.uid
  gid : e.gid = m.gid
  dev : (e.rmaj, e.rmin) = devOf m.kind
  /-- apart from the line appended to `etc/fstab` -/
  content : ∃ data, HasContent t m data ∧ (e.data = data ∨
    (∃ d, m.kind = .reg d) ∧ pathOf m.name = fstab ∧ e.data = data ++ devtmpfsLine)

/-- Each member has exactly one record of its path, and it is its record. -/
def Keeps (t : Tar) (es : List Entry) : Prop :=
  ∀ m ∈ t.members, m.kind.listed = true → pathOf m.name ≠ [] →
    (es.map Entry.name).count (pathOf m.name) = 1 ∧ ∃ e ∈ es, Carries t m e

/-- **The cpio keeps the files**: it is read back as what was written, and that keeps each member. -/
def KeepsFiles (t : Tar) : Prop :=
  ∃ out es, main t = .ok out ∧ readNewc out = some es ∧ written t = .ok es ∧ Keeps t es

/-! ## 2. One member -/

/-- The mode that `entry` is called with. -/
def modeOf (m : TarInfo) : Int :=
  match m.kind with
  | .sym _ => Int.lor sIflnk 0o777
  | k => Int.lor (typeBits k) m.mode

def nlinkOf : Kind → Int
  | .dir => 2
  | _ => 1

/-- The data that `entry` is called with. -/
def dataOf (t : Tar) (m : TarInfo) (name : List UInt8) : Except PyError (List UInt8) :=
  match m.kind with
  | .sym linkname => encode linkname
  | .reg data => pure (withDevtmpfs name data)
  | .lnk linkname => do
    let src ← extractfile t linkname
    pure (src.getD [])
  | _ => pure []

def recordOf (m : TarInfo) (name data : List UInt8) : Entry :=
  ⟨name, modeOf m, m.uid, m.gid, nlinkOf m.kind, m.mtime, data, (devOf m.kind).1, (devOf m.kind).2⟩

theorem member_eq {t : Tar} {m : TarInfo} (hk : m.kind.listed = true) (name : List UInt8) :
    member t m name = (do
      let data ← dataOf t m name
      let nameB ← encode name
      pure [recordOf m nameB data]) := by
  obtain ⟨_, mode, uid, gid, mtime, kind⟩ := m
  cases kind with
  | lnk linkname =>
    show (extractfile t linkname >>= _) = ((extractfile t linkname >>= _) >>= _)
    rw [bind_assoc]
    rfl
  | other data => cases hk
  | _ => rfl

/-- **What `main` writes for a member**: its record, if its texts are UTF-8 and its data are found. -/
theorem member_listed {t : Tar} {m : TarInfo} {name : List UInt8} {es : List Entry}
    (hk : m.kind.listed = true) : member t m name = .ok es ↔
      ∃ data, dataOf t m name = .ok data ∧ utf8 name = true ∧ es = [recordOf m name data] := by
  rw [member_eq hk]
  constructor
  · intro h
    obtain ⟨data, hdata, h⟩ := bind_ok.mp h
    obtain ⟨n, hn, hes⟩ := bind_ok.mp h
    obtain ⟨htext, rfl⟩ := encode_ok.mp hn
    exact ⟨data, hdata, htext, (pure_ok.mp hes).symm⟩
  · intro hex
    obtain ⟨data, hdata, htext, rfl⟩ := hex
    exact bind_ok.mpr ⟨data, hdata, bind_ok.mpr ⟨name, encode_ok.mpr ⟨htext, rfl⟩, rfl⟩⟩

theorem member_other {t : Tar} {m : TarInfo} {name : List UInt8} (hk : m.kind.listed = false) :
    member t m name = .ok [] := by
  unfold member
  cases hkind : m.kind with
  | other data => rfl
  | _ =>
    rw [hkind] at hk
    cases hk

/-- Whatever is written for a member is of a listed one. -/
theorem listed_of_mem {t : Tar} {m : TarInfo} {name : List UInt8} {r : List Entry} (h : member t m name = .ok r)
    {e : Entry} (he : e ∈ r) : m.kind.listed = true := by
  cases hk : m.kind.listed with
  | true => rfl
  | false =>
    obtain rfl : r = [] := Except.ok.inj (h.symm.trans (member_other hk))
    exact absurd he List.not_mem_nil

theorem name_of_mem {t : Tar} {m : TarInfo} {name : List UInt8} {r : List Entry} (h : member t m name = .ok r)
    {e : Entry} (he : e ∈ r) : e.name = name := by
  obtain rfl | ⟨e', rfl, hname⟩ := member_name h
  · exact absurd he List.not_mem_nil
  · obtain rfl := List.mem_singleton.mp he
    exact hname

/-- The type bits leave the permission bits alone. -/
theorem land_lor_perm {s : Nat} (hs : s &&& 0o7777 = 0) (mode : Int) :
    Int.land (Int.lor s mode) 0o7777 = Int.land mode 0o7777 := by
  have hbit : ∀ i, s.testBit i = true → (0o7777 : Nat).testBit i = false := by
    intro i hi
    have h := congrArg (fun n => Nat.testBit n i) hs
    simp only [Nat.testBit_and, hi, Bool.true_and, Nat.zero_testBit] at h
    exact h
  cases mode with
  | ofNat n =>
    show ((s ||| n) &&& 0o7777 : Nat) = ((n &&& 0o7777 : Nat) : Int)
    rw [Nat.and_or_distrib_right, hs, Nat.zero_or]
  | negSucc n =>
    show (Nat.ldiff 0o7777 (Nat.ldiff n s) : Int) = (Nat.ldiff 0o7777 n : Nat)
    congr 1
    refine Nat.eq_of_testBit_eq fun i => ?_
    rw [Nat.testBit_ldiff, Nat.testBit_ldiff, Nat.testBit_ldiff]
    cases hi : s.testBit i with
    | true => rw [hbit i hi, Bool.false_and, Bool.false_and]
    | false => rw [Bool.not_false, Bool.and_true]

/-- The permission bits are those of the member, whatever its type. -/
theorem typeBits_perm (k : Kind) (mode : Int) :
    Int.land (Int.lor (typeBits k) mode) 0o7777 = Int.land mode 0o7777 := by
  cases k with
  | dir => exact land_lor_perm (s := 0o40000) (by decide) mode
  | sym linkname => exact land_lor_perm (s := 0o120000) (by decide) mode
  | reg data => exact land_lor_perm (s := 0o100000) (by decide) mode
  | chr devmajor devminor => exact land_lor_perm (s := 0o20000) (by decide) mode
  | blk devmajor devminor => exact land_lor_perm (s := 0o60000) (by decide) mode
  | fifo => exact land_lor_perm (s := 0o10000) (by decide) mode
  | lnk linkname => exact land_lor_perm (s := 0o100000) (by decide) mode
  | other data => exact land_lor_perm (s := 0) (by decide) mode

/-- The mode of a symlink is 0777, and that of another member has no bits of another type in it. -/
def SoundMode (m : TarInfo) : Prop :=
  match m.kind with
  | .sym _ => Int.land m.mode 0o7777 = 0o777
  | k => Int.land (Int.lor (typeBits k) m.mode) 0o170000 = typeBits k

theorem soundMode_iff {m : TarInfo} : (Int.land (modeOf m) 0o170000 = typeBits m.kind ∧
    Int.land (modeOf m) 0o7777 = Int.land m.mode 0o7777) ↔ SoundMode m := by
  unfold modeOf SoundMode
  cases hkind : m.kind with
  | sym linkname =>
    have htype : Int.land (Int.lor sIflnk 0o777) 0o170000 = sIflnk := by decide
    have hbits : Int.land (Int.lor sIflnk 0o777) 0o7777 = 0o777 := by decide
    dsimp only
    rw [hbits]
    exact ⟨fun h => h.2.symm, fun h => ⟨htype, h.symm⟩⟩
  | _ =>
    dsimp only
    exact ⟨fun h => h.1, fun h => ⟨h, typeBits_perm _ _⟩⟩

/-- The content of every member but a hard link is what is written. -/
theorem dataOf_content {t : Tar} {m : TarInfo} {data : List UInt8} (hk : m.kind.listed = true)
    (hno : ∀ linkname, m.kind ≠ .lnk linkname) (hdata : dataOf t m (pathOf m.name) = .ok data) :
    ∃ own, HasContent t m own ∧ (data = own ∨
      (∃ d, m.kind = .reg d) ∧ pathOf m.name = fstab ∧ data = own ++ devtmpfsLine) := by
  unfold dataOf at hdata
  cases hkind : m.kind with
  | sym linkname =>
    simp only [hkind] at hdata
    exact ⟨linkname, .sym hkind, .inl (encode_ok.mp hdata).2⟩
  | reg own =>
    simp only [hkind] at hdata
    have hdata := pure_ok.mp hdata
    refine ⟨own, .reg hkind, ?_⟩
    unfold withDevtmpfs at hdata
    split at hdata
    · rename_i hfstab
      exact .inr ⟨⟨own, rfl⟩, hfstab.1, hdata.symm⟩
    · exact .inl hdata.symm
  | lnk linkname => exact absurd hkind (hno linkname)
  | dir =>
    simp only [hkind] at hdata
    exact ⟨[], .dir hkind, .inl (pure_ok.mp hdata).symm⟩
  | chr devmajor devminor =>
    simp only [hkind] at hdata
    exact ⟨[], .chr hkind, .inl (pure_ok.mp hdata).symm⟩
  | blk devmajor devminor =>
    simp only [hkind] at hdata
    exact ⟨[], .blk hkind, .inl (pure_ok.mp hdata).symm⟩
  | fifo =>
    simp only [hkind] at hdata
    exact ⟨[], .fifo hkind, .inl (pure_ok.mp hdata).symm⟩
  | other own =>
    rw [hkind] at hk
    cases hk

theorem dataOf_lnk {t : Tar} {m : TarInfo} {name data linkname : List UInt8} (hkind : m.kind = .lnk linkname)
    (hdata : dataOf t m name = .ok data) : ∃ src, extractfile t linkname = .ok src ∧ src.getD [] = data := by
  unfold dataOf at hdata
  simp only [hkind] at hdata
  obtain ⟨src, hsrc, hpure⟩ := bind_ok.mp hdata
  exact ⟨src, hsrc, pure_ok.mp hpure⟩

/-- A link names its target as the target names itself. -/
def SoundTarget (t : Tar) (m : TarInfo) : Prop :=
  ∀ linkname, m.kind = .lnk linkname → ∃ src, extractfile t linkname = .ok src ∧ HasContent t m (src.getD [])

/-- **The record that is written carries the member** if and only if its mode and its target are sound. -/
theorem carries_iff {t : Tar} {m : TarInfo} {data : List UInt8} (hk : m.kind.listed = true)
    (hdata : dataOf t m (pathOf m.name) = .ok data) :
    Carries t m (recordOf m (pathOf m.name) data) ↔ SoundMode m ∧ SoundTarget t m := by
  constructor
  · intro hc
    refine ⟨soundMode_iff.mp ⟨hc.type, hc.perm⟩, fun linkname hkind => ?_⟩
    obtain ⟨src, hsrc, hsrcD⟩ := dataOf_lnk hkind hdata
    obtain ⟨own, hhas, hown | ⟨⟨d, hreg⟩, -⟩⟩ := hc.content
    · have hown : data = own := hown
      exact ⟨src, hsrc, by rw [hsrcD, hown]; exact hhas⟩
    · rw [hkind] at hreg
      cases hreg
  · intro hsound
    obtain ⟨hm, hl⟩ := hsound
    obtain ⟨htype, hperm⟩ := soundMode_iff.mpr hm
    refine ⟨rfl, htype, hperm, rfl, rfl, rfl, ?_⟩
    by_cases hlnk : ∃ linkname, m.kind = .lnk linkname
    · obtain ⟨linkname, hkind⟩ := hlnk
      obtain ⟨src, hsrc, hsrcD⟩ := dataOf_lnk hkind hdata
      obtain ⟨src', hsrc', hhas⟩ := hl linkname hkind
      obtain rfl : src = src' := Except.ok.inj (hsrc.symm.trans hsrc')
      exact ⟨_, hhas, .inl hsrcD.symm⟩
    · exact dataOf_content hk (fun linkname hkind => hlnk ⟨linkname, hkind⟩) hdata

/-- A member, behind `pre`, that the conversion is good for. -/
structure Sound (t : Tar) (pre : List TarInfo) (m : TarInfo) : Prop where
  /-- there is nothing more to strip, -/
  name : lstrip m.name = pathOf m.name
  /-- and no member before it is stripped to the same name -/
  first : ∀ m' ∈ pre, lstrip m'.name ≠ pathOf m.name
  text : utf8 (pathOf m.name) = true
  linkname : ∀ linkname, m.kind = .sym linkname → utf8 linkname = true
  mode : SoundMode m
  target : SoundTarget t m
  /-- every number has room in the header -/
  fits : ∀ data, dataOf t m (pathOf m.name) = .ok data → Encodable (recordOf m (pathOf m.name) data)
  /-- the path is not that of the sentinel -/
  sentinel : pathOf m.name ≠ trailerName

/-! ## 3. The loop -/

/-- What is left of a path is what is left of the name. -/
theorem lstrip_pathOf (s : List UInt8) : lstrip (pathOf s) = lstrip s := by
  unfold pathOf
  split <;> rfl

theorem pathOf_ne_nil {s : List UInt8} (h : lstrip s ≠ []) : pathOf s ≠ [] := by
  intro h0
  apply h
  rw [← lstrip_pathOf, h0]
  rfl

/-- A name that begins with neither of the two characters, as every stripped name does. -/
theorem lstrip_lstrip (s : List UInt8) : lstrip (lstrip s) = lstrip s :=
  lstrip_eq_self fun _ _ h => lstrip_head h

theorem members_skip {t : Tar} {seen : List (List UInt8)} {m : TarInfo} {ms : List TarInfo}
    (h : lstrip m.name = [] ∨ lstrip m.name ∈ seen) : members t seen (m :: ms) = members t seen ms :=
  if_pos h

theorem members_step {t : Tar} {seen seen' : List (List UInt8)} {m : TarInfo} {ms : List TarInfo} {es : List Entry}
    (h : ¬(lstrip m.name = [] ∨ lstrip m.name ∈ seen)) : members t seen (m :: ms) = .ok (es, seen') ↔
      ∃ r rest, member t m (lstrip m.name) = .ok r ∧ members t (lstrip m.name :: seen) ms = .ok (rest, seen') ∧
        es = r ++ rest := by
  have heq : members t seen (m :: ms) = member t m (lstrip m.name) >>= fun es =>
      members t (lstrip m.name :: seen) ms >>= fun p => pure (es ++ p.1, p.2) := if_neg h
  rw [heq]
  constructor
  · intro h
    obtain ⟨r, hr, h⟩ := bind_ok.mp h
    obtain ⟨⟨rest, seen₁⟩, hrest, h⟩ := bind_ok.mp h
    obtain ⟨rfl, rfl⟩ := Prod.mk.inj (pure_ok.mp h)
    exact ⟨r, rest, hr, hrest, rfl⟩
  · intro hparts
    obtain ⟨r, rest, hr, hrest, rfl⟩ := hparts
    exact bind_ok.mpr ⟨r, hr, bind_ok.mpr ⟨(rest, seen'), hrest, rfl⟩⟩

/-- The loop comes through if each member does. -/
theorem members_exists {t : Tar} {ms : List TarInfo}
    (h : ∀ m ∈ ms, lstrip m.name ≠ [] → ∃ r, member t m (lstrip m.name) = .ok r) (seen : List (List UInt8)) :
    ∃ es seen', members t seen ms = .ok (es, seen') := by
  induction ms generalizing seen with
  | nil => exact ⟨[], seen, rfl⟩
  | cons m ms ih =>
    have ih := ih fun m' hm' => h m' (List.mem_cons_of_mem _ hm')
    by_cases hs : lstrip m.name = [] ∨ lstrip m.name ∈ seen
    · rw [members_skip hs]
      exact ih seen
    · obtain ⟨r, hr⟩ := h m List.mem_cons_self fun h0 => hs (.inl h0)
      obtain ⟨rest, seen', hrest⟩ := ih (lstrip m.name :: seen)
      exact ⟨r ++ rest, seen', (members_step hs).mpr ⟨r, rest, hr, hrest, rfl⟩⟩

/-- The names that were seen. -/
theorem members_seen {t : Tar} {seen seen' : List (List UInt8)} {ms : List TarInfo} {es : List Entry}
    (h : members t seen ms = .ok (es, seen')) (x : List UInt8) :
    x ∈ seen' ↔ x ∈ seen ∨ x ≠ [] ∧ ∃ m ∈ ms, lstrip m.name = x := by
  induction ms generalizing seen es with
  | nil =>
    obtain ⟨-, rfl⟩ := Prod.mk.inj (pure_ok.mp h)
    simp only [List.not_mem_nil, false_and, exists_false, and_false, or_false]
  | cons m ms ih =>
    by_cases hs : lstrip m.name = [] ∨ lstrip m.name ∈ seen
    · rw [members_skip hs] at h
      rw [ih h]
      simp only [List.mem_cons, exists_eq_or_imp]
      grind
    · obtain ⟨r, rest, -, hrest, -⟩ := (members_step hs).mp h
      rw [ih hrest]
      simp only [List.mem_cons, exists_eq_or_imp]
      grind

/-- **What is written comes from a member**: the first of its stripped name. -/
theorem members_source {t : Tar} {seen seen' : List (List UInt8)} {ms : List TarInfo} {es : List Entry}
    (h : members t seen ms = .ok (es, seen')) {e : Entry} (he : e ∈ es) :
    ∃ pre m post r, ms = pre ++ m :: post ∧ (∀ m' ∈ pre, lstrip m'.name ≠ lstrip m.name) ∧
      lstrip m.name ≠ [] ∧ lstrip m.name ∉ seen ∧ member t m (lstrip m.name) = .ok r ∧ e ∈ r := by
  induction ms generalizing seen es with
  | nil =>
    obtain ⟨rfl, -⟩ := Prod.mk.inj (pure_ok.mp h)
    exact absurd he List.not_mem_nil
  | cons m ms ih =>
    by_cases hs : lstrip m.name = [] ∨ lstrip m.name ∈ seen
    · rw [members_skip hs] at h
      obtain ⟨pre, m₁, post, r, rfl, hfirst, hne, hseen, hr, her⟩ := ih h he
      refine ⟨m :: pre, m₁, post, r, rfl, fun m' hm' => ?_, hne, hseen, hr, her⟩
      rcases List.mem_cons.mp hm' with rfl | hm'
      · rcases hs with hs | hs
        · rw [hs]
          exact hne.symm
        · exact fun heq => hseen (heq ▸ hs)
      · exact hfirst m' hm'
    · obtain ⟨r, rest, hr, hrest, rfl⟩ := (members_step hs).mp h
      rcases List.mem_append.mp he with he | he
      · exact ⟨[], m, ms, r, rfl, fun m' hm' => absurd hm' List.not_mem_nil, fun h0 => hs (.inl h0),
          fun h0 => hs (.inr h0), hr, he⟩
      · obtain ⟨pre, m₁, post, r₁, rfl, hfirst, hne, hseen, hr₁, her⟩ := ih hrest he
        refine ⟨m :: pre, m₁, post, r₁, rfl, fun m' hm' => ?_, hne,
          fun h0 => hseen (List.mem_cons_of_mem _ h0), hr₁, her⟩
        rcases List.mem_cons.mp hm' with rfl | hm'
        · exact fun heq => hseen (heq ▸ List.mem_cons_self)
        · exact hfirst m' hm'

/-- **The first member of a stripped name** is written. -/
theorem members_first {t : Tar} {seen seen' : List (List UInt8)} {pre post : List TarInfo} {m : TarInfo}
    {es : List Entry} (h : members t seen (pre ++ m :: post) = .ok (es, seen'))
    (hfirst : ∀ m' ∈ pre, lstrip m'.name ≠ lstrip m.name) (hne : lstrip m.name ≠ [])
    (hseen : lstrip m.name ∉ seen) : ∃ r, member t m (lstrip m.name) = .ok r ∧ ∀ e ∈ r, e ∈ es := by
  induction pre generalizing seen es with
  | nil =>
    obtain ⟨r, rest, hr, -, rfl⟩ := (members_step (not_or.mpr ⟨hne, hseen⟩)).mp h
    exact ⟨r, hr, fun e he => List.mem_append_left _ he⟩
  | cons m₁ pre ih =>
    by_cases hs : lstrip m₁.name = [] ∨ lstrip m₁.name ∈ seen
    · rw [List.cons_append, members_skip hs] at h
      exact ih h (fun m' hm' => hfirst m' (List.mem_cons_of_mem _ hm')) hseen
    · obtain ⟨_, rest, -, hrest, rfl⟩ := (members_step hs).mp h
      obtain ⟨r, hr, hmem⟩ := ih hrest (fun m' hm' => hfirst m' (List.mem_cons_of_mem _ hm'))
        (mt List.mem_cons.mp (not_or.mpr ⟨(hfirst m₁ List.mem_cons_self).symm, hseen⟩))
      exact ⟨r, hr, fun e he => List.mem_append_right _ (hmem e he)⟩

/-- No two records have one name. -/
theorem members_nodup {t : Tar} {seen seen' : List (List UInt8)} {ms : List TarInfo} {es : List Entry}
    (h : members t seen ms = .ok (es, seen')) : (es.map Entry.name).Nodup := by
  induction ms generalizing seen es with
  | nil =>
    obtain ⟨rfl, -⟩ := Prod.mk.inj (pure_ok.mp h)
    exact List.nodup_nil
  | cons m ms ih =>
    by_cases hs : lstrip m.name = [] ∨ lstrip m.name ∈ seen
    · rw [members_skip hs] at h
      exact ih h
    · obtain ⟨r, rest, hr, hrest, rfl⟩ := (members_step hs).mp h
      rcases member_name hr with rfl | ⟨e, rfl, he⟩
      · exact ih hrest
      · rw [List.singleton_append, List.map_cons, List.nodup_cons, he]
        refine ⟨fun hmem => ?_, ih hrest⟩
        obtain ⟨e', he', heq⟩ := List.mem_map.mp hmem
        obtain ⟨_, m', _, r', -, -, -, hseen, hr', her⟩ := members_source hrest he'
        exact hseen (by rw [← name_of_mem hr' her, heq]; exact List.mem_cons_self)

/-! ## 4. The conversion -/

theorem injected_seen {seen : List (List UInt8)} {e : Entry} (h : e ∈ injected seen) :
    e ∈ initEntry :: devNodes ∧ e.name ∉ seen := by
  obtain ⟨hmem, hnot⟩ := List.mem_filter.mp h
  exact ⟨hmem, of_decide_eq_true hnot⟩

theorem injected_sound : ∀ e ∈ initEntry :: devNodes, lstrip e.name = e.name ∧ Encodable e ∧
    e.name ≠ trailerName := by
  intro e he
  have hfields : ∀ e ∈ initEntry :: devNodes, ∀ v ∈ e.fields, 0 ≤ v ∧ v < 2 ^ 32 := by decide
  have hname : ∀ e ∈ initEntry :: devNodes, lstrip e.name = e.name ∧ 0 ∉ e.name ∧ e.name ≠ trailerName := by
    decide
  obtain ⟨hstrip, hzero, hne⟩ := hname e he
  exact ⟨hstrip, ⟨hfields e he, hzero⟩, hne⟩

/-- **What is written**: the records of the loop, and those that are injected. -/
theorem written_ok {t : Tar} {es : List Entry} : written t = .ok es ↔
    ∃ own seen, members t [] t.members = .ok (own, seen) ∧ es = own ++ injected seen := by
  unfold written
  constructor
  · intro h
    obtain ⟨⟨own, seen⟩, hown, h⟩ := bind_ok.mp h
    exact ⟨own, seen, hown, (pure_ok.mp h).symm⟩
  · intro hparts
    obtain ⟨own, seen, hown, rfl⟩ := hparts
    exact bind_ok.mpr ⟨(own, seen), hown, rfl⟩

/-- No two records of the cpio have one name. -/
theorem written_nodup {t : Tar} {es : List Entry} (h : written t = .ok es) : (es.map Entry.name).Nodup := by
  obtain ⟨own, seen, hown, rfl⟩ := written_ok.mp h
  have hdecl : ((initEntry :: devNodes).map Entry.name).Nodup := by decide
  rw [List.map_append]
  refine List.nodup_append.mpr ⟨members_nodup hown, ?_, ?_⟩
  · exact hdecl.sublist (List.filter_sublist.map _)
  · intro x hx y hy hxy
    obtain ⟨e, he, rfl⟩ := List.mem_map.mp hx
    obtain ⟨e', he', rfl⟩ := List.mem_map.mp hy
    obtain ⟨_, m, _, r, hsplit, -, hne, -, hr, her⟩ := members_source hown he
    have hname := name_of_mem hr her
    refine (injected_seen he').2 (hxy ▸ (members_seen hown e.name).mpr (.inr ⟨hname ▸ hne, m, ?_, hname.symm⟩))
    rw [hsplit]
    exact List.mem_append_right _ List.mem_cons_self

/-- Every record has a stripped name. -/
theorem written_lstrip {t : Tar} {es : List Entry} (h : written t = .ok es) {e : Entry} (he : e ∈ es) :
    lstrip e.name = e.name := by
  obtain ⟨own, seen, hown, rfl⟩ := written_ok.mp h
  rcases List.mem_append.mp he with he | he
  · obtain ⟨_, m, _, r, -, -, -, -, hr, her⟩ := members_source hown he
    rw [name_of_mem hr her, lstrip_lstrip]
  · exact (injected_sound e (injected_seen he).1).1

theorem dataOf_exists {t : Tar} {m : TarInfo} (hl : ∀ linkname, m.kind = .sym linkname → utf8 linkname = true)
    (ht : SoundTarget t m) (name : List UInt8) : ∃ data, dataOf t m name = .ok data := by
  unfold dataOf
  cases hkind : m.kind with
  | sym linkname => exact ⟨linkname, encode_ok.mpr ⟨hl linkname hkind, rfl⟩⟩
  | lnk linkname =>
    obtain ⟨src, hsrc, -⟩ := ht linkname hkind
    exact ⟨src.getD [], bind_ok.mpr ⟨src, hsrc, rfl⟩⟩
  | _ => exact ⟨_, rfl⟩

/-- A sound member has its record. -/
theorem Sound.record {t : Tar} {pre : List TarInfo} {m : TarInfo} (h : Sound t pre m)
    (hk : m.kind.listed = true) : ∃ data, member t m (pathOf m.name) = .ok [recordOf m (pathOf m.name) data] ∧
      Carries t m (recordOf m (pathOf m.name) data) ∧ Encodable (recordOf m (pathOf m.name) data) := by
  obtain ⟨data, hdata⟩ := dataOf_exists h.linkname h.target (pathOf m.name)
  exact ⟨data, (member_listed hk).mpr ⟨data, hdata, h.text, rfl⟩, (carries_iff hk hdata).mpr ⟨h.mode, h.target⟩,
    h.fits data hdata⟩

/-- A member whose record is written under its path is sound: the record that carries it can come from no other
    member, for that one would have none. -/
theorem Keeps.sound {t : Tar} {es : List Entry} (hpaths : (t.members.map fun m => pathOf m.name).Nodup)
    (hwritten : written t = .ok es) (henc : ∀ e ∈ es, Encodable e ∧ e.name ≠ trailerName) (h : Keeps t es)
    {pre post : List TarInfo} {m : TarInfo} (hsplit : t.members = pre ++ m :: post)
    (hk : m.kind.listed = true) (hne : pathOf m.name ≠ []) : Sound t pre m := by
  have hm : m ∈ t.members := by
    rw [hsplit]
    exact List.mem_append_right _ List.mem_cons_self
  obtain ⟨-, e, he, hc⟩ := h m hm hk hne
  have hname : lstrip m.name = pathOf m.name := by
    rw [← lstrip_pathOf, ← hc.name, written_lstrip hwritten he]
  obtain ⟨own, seen, hown, rfl⟩ := written_ok.mp hwritten
  -- the name was seen, so the record is none that was injected
  have hseen : pathOf m.name ∈ seen := (members_seen hown _).mpr (.inr ⟨hne, m, hm, hname⟩)
  have heown : e ∈ own := by
    rcases List.mem_append.mp he with he | he
    · exact he
    · exact absurd (hc.name ▸ hseen) (injected_seen he).2
  obtain ⟨pre', m', post', r, hsplit', hfirst, hne', -, hr, her⟩ := members_source hown heown
  have hk' := listed_of_mem hr her
  obtain ⟨data, hdata, htext, rfl⟩ := (member_listed hk').mp hr
  obtain rfl := List.mem_singleton.mp her
  have hm' : m' ∈ t.members := by
    rw [hsplit']
    exact List.mem_append_right _ List.mem_cons_self
  have hpath : pathOf m'.name = pathOf m.name := by
    obtain ⟨-, e', he', hc'⟩ := h m' hm' hk' (pathOf_ne_nil hne')
    rw [← hc'.name, ← written_lstrip hwritten he', hc'.name, lstrip_pathOf]
    exact hc.name
  obtain rfl : m' = m := List.inj_on_of_nodup_map hpaths hm' hm hpath
  have hno : m' ∉ pre ++ post := by
    have hnodup := List.Nodup.of_map _ hpaths
    rw [hsplit] at hnodup
    exact (List.nodup_cons.mp (List.nodup_middle.mp hnodup)).1
  obtain ⟨rfl, -, -⟩ := (List.append_cons_inj_of_notMem (fun hmem => hno (List.mem_append_left _ hmem))
    (fun hmem => hno (List.mem_append_right _ hmem))).mp (hsplit.symm.trans hsplit')
  rw [hname] at hdata htext hc hfirst he
  obtain ⟨hmode, htarget⟩ := (carries_iff hk hdata).mp hc
  refine ⟨hname, hfirst, htext, fun linkname hkind => ?_, hmode, htarget, fun data' hdata' => ?_,
    (henc _ he).2⟩
  · unfold dataOf at hdata
    simp only [hkind] at hdata
    exact (encode_ok.mp hdata).1
  · obtain rfl : data = data' := Except.ok.inj (hdata.symm.trans hdata')
    exact (henc _ he).1

section AllSound

variable {t : Tar} (h : ∀ pre m post, t.members = pre ++ m :: post → m.kind.listed = true →
  pathOf m.name ≠ [] → Sound t pre m)
include h

/-- The loop comes through. -/
theorem members_of_sound : ∃ own seen, members t [] t.members = .ok (own, seen) := by
  refine members_exists (fun m hm hne => ?_) []
  cases hk : m.kind.listed with
  | false => exact ⟨[], member_other hk⟩
  | true =>
    obtain ⟨pre, post, hsplit⟩ := List.append_of_mem hm
    have hs := h pre m post hsplit hk (pathOf_ne_nil hne)
    obtain ⟨data, hr, -, -⟩ := hs.record hk
    exact ⟨_, hs.name ▸ hr⟩

theorem encodable_of_sound {es : List Entry} (hwritten : written t = .ok es) :
    ∀ e ∈ es, Encodable e ∧ e.name ≠ trailerName := by
  obtain ⟨own, seen, hown, rfl⟩ := written_ok.mp hwritten
  intro e he
  rcases List.mem_append.mp he with he | he
  · obtain ⟨pre, m, post, r, hsplit, -, hne, -, hr, her⟩ := members_source hown he
    have hk := listed_of_mem hr her
    have hs := h pre m post hsplit hk (pathOf_ne_nil hne)
    obtain ⟨data, hr', -, hencodable⟩ := hs.record hk
    rw [hs.name] at hr
    obtain rfl := Except.ok.inj (hr.symm.trans hr')
    obtain rfl := List.mem_singleton.mp her
    exact ⟨hencodable, hs.sentinel⟩
  · exact (injected_sound e (injected_seen he).1).2

/-- Every member is the first of its name, so its record is written, and no other has its path. -/
theorem keeps_of_sound {es : List Entry} (hwritten : written t = .ok es) : Keeps t es := by
  have hnodup := written_nodup hwritten
  obtain ⟨own, seen, hown, rfl⟩ := written_ok.mp hwritten
  intro m hm hk hne
  obtain ⟨pre, post, hsplit⟩ := List.append_of_mem hm
  have hs := h pre m post hsplit hk hne
  obtain ⟨data, hr, hcarries, -⟩ := hs.record hk
  obtain ⟨r, hr', hmem⟩ := members_first (hsplit ▸ hown) (fun m' hm' => by rw [hs.name]; exact hs.first m' hm')
    (by rw [hs.name]; exact hne) List.not_mem_nil
  rw [hs.name] at hr'
  obtain rfl := Except.ok.inj (hr'.symm.trans hr)
  have he : recordOf m (pathOf m.name) data ∈ own ++ injected seen :=
    List.mem_append_left _ (hmem _ List.mem_cons_self)
  exact ⟨List.count_eq_one_of_mem hnodup (List.mem_map_of_mem (f := Entry.name) he), _, he, hcarries⟩

end AllSound

/-- **The cpio keeps the files** of a tar whose paths are distinct if and only if each member is sound. -/
theorem main_keeps_iff {t : Tar} (hpaths : (t.members.map fun m => pathOf m.name).Nodup) :
    KeepsFiles t ↔ ∀ pre m post, t.members = pre ++ m :: post → m.kind.listed = true → pathOf m.name ≠ [] →
      Sound t pre m := by
  constructor
  · intro hfiles pre m post hsplit hk hne
    obtain ⟨out, es, -, hread, hwritten, hkeeps⟩ := hfiles
    exact hkeeps.sound hpaths hwritten (readAll_encodable hread) hsplit hk hne
  · intro h
    obtain ⟨own, seen, hown⟩ := members_of_sound h
    have hwritten : written t = .ok (own ++ injected seen) := written_ok.mpr ⟨own, seen, hown, rfl⟩
    have henc := encodable_of_sound h hwritten
    have hread := (readNewc_archive (fun e he => (henc e he).1) (fun e he => (henc e he).2)).1
    exact ⟨archive (own ++ injected seen), own ++ injected seen, bind_ok.mpr ⟨_, hwritten, rfl⟩, hread, hwritten,
      keeps_of_sound h hwritten⟩

/-- `./a`, and `./b` that links to it. -/
def linked : Tar where
  members := [⟨[46, 47, 97], 0o644, 0, 0, 1700000000, .reg [104, 105, 10]⟩,
    ⟨[46, 47, 98], 0o644, 0, 0, 1700000000, .lnk [46, 47, 97]⟩]
  follow _ := .error .other

theorem keepsFiles_linked : KeepsFiles linked := by
  have hsrc : extractfile linked [46, 47, 97] = .ok (some [104, 105, 10]) := by decide
  refine (main_keeps_iff (by decide)).mpr fun pre m post hsplit _ _ => ?_
  rcases pre with _ | ⟨m₀, _ | ⟨m₁, pre⟩⟩
  · obtain ⟨rfl, -⟩ := List.cons.inj hsplit
    refine ⟨rfl, fun _ h => absurd h List.not_mem_nil, by decide, (fun _ h => nomatch h),
      by unfold SoundMode; decide, (fun _ h => nomatch h), fun data hdata => ?_, by decide⟩
    obtain rfl := pure_ok.mp hdata
    exact ⟨by decide, by decide⟩
  · obtain ⟨rfl, hsplit₁⟩ := List.cons.inj hsplit
    obtain ⟨rfl, -⟩ := List.cons.inj hsplit₁
    refine ⟨rfl, by decide, by decide, (fun _ h => nomatch h), by unfold SoundMode; decide, ?_, ?_, by decide⟩
    · intro linkname hkind
      obtain rfl := Kind.lnk.inj hkind
      exact ⟨_, hsrc, .lnk rfl List.mem_cons_self rfl (.inl ⟨_, rfl⟩) (.reg rfl)⟩
    · intro data hdata
      obtain ⟨src, hsrc', rfl⟩ := dataOf_lnk rfl hdata
      obtain rfl := Except.ok.inj (hsrc'.symm.trans hsrc)
      exact ⟨by decide, by decide⟩
  · have hlen := congrArg List.length (List.cons.inj (List.cons.inj hsplit).2).2
    rw [List.append_eq, List.length_append] at hlen
    cases hlen

/-- `./.profile` and `./profile`. -/
def profiles : Tar where
  members := [⟨[46, 47, 46, 112, 114, 111, 102, 105, 108, 101], 0o644, 0, 0, 0, .reg [49]⟩,
    ⟨[46, 47, 112, 114, 111, 102, 105, 108, 101], 0o644, 0, 0, 0, .reg [50]⟩]
  follow _ := .error .other

/-- Of the two the first is renamed to the second, and the second is dropped. -/
theorem not_keepsFiles : ¬∀ t : Tar, (t.members.map fun m => pathOf m.name).Nodup →
    (∀ m ∈ t.members, pathOf m.name ≠ []) → KeepsFiles t := by
  intro h
  obtain ⟨_, es, -, -, hes, hkeeps⟩ := h profiles (by decide) (by decide)
  obtain ⟨es', hes', hnone⟩ : ∃ es', written profiles = .ok es' ∧
      decide ((es'.map Entry.name).count [46, 112, 114, 111, 102, 105, 108, 101] = 0) = true :=
    exists_ok (by decide +kernel)
  obtain rfl := Except.ok.inj (hes.symm.trans hes')
  have hone := (hkeeps _ List.mem_cons_self rfl (by decide)).1
  exact absurd (hone.symm.trans (of_decide_eq_true hnone)) Nat.one_ne_zero

end P4Linux.Cpio
