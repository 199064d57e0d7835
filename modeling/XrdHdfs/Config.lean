import Mathlib.Data.Int.Bitwise
import XrdHdfs.Lib.Prog
import XrdHdfs.Basic

/-!
# The configuration of the plugin

`XrdHdfsSys::Init` reads the configuration file, record by record.  A `oss.namelib` directive names the library that
translates paths, with its parameters; the last one counts.  A directive that is not well formed makes the configuration
fail, but what stands behind it is read all the same.  When all has been read, the library is loaded.

`Site` is what the plugin meets with: `XrdOucStream`, which cuts the file into records and words, the files, and the
libraries.  `Site.configuration` says what the file comes to, and `init_configuration`, that this is what becomes of the
plugin, whatever an earlier configuration has left in it.
-/

namespace XrdHdfs

open Lib

/-! ### What is outside of the plugin -/

/-- `XrdOucStream`, as far as the plugin uses it, on states `σ`. -/
structure XrdOucStream (σ : Type) where
  getMyFirstWord : σ → Option Bytes × σ
  getWord : σ → Option Bytes × σ
  /-- The words that are left, for a buffer of that size; `none` when they do not fit. -/
  getRest : ℕ → σ → Option Bytes × σ
  lastError : σ → ℤ

/-- A record of the file: its first word, and the others. -/
abbrev ConfigRecord := Bytes × List Bytes

/-- **What the stream promises**: it shows the words that are left of a record and the records that come, one after the
other, until the end of the file or an error. -/
structure XrdOucStream.Contract {σ : Type} (S : XrdOucStream σ) where
  words : σ → List Bytes
  records : σ → List ConfigRecord
  /-- The error that ends the reading; 0 when it is the end of the file. -/
  error : σ → ℤ
  /-- The words as one string, if a buffer of that size holds it. -/
  joined : ℕ → List Bytes → Option Bytes
  first_nil : ∀ s, records s = [] → (S.getMyFirstWord s).1 = none ∧ S.lastError (S.getMyFirstWord s).2 = error s
  first_cons : ∀ s r rs, records s = r :: rs → (S.getMyFirstWord s).1 = some r.1 ∧
    words (S.getMyFirstWord s).2 = r.2 ∧ records (S.getMyFirstWord s).2 = rs ∧ error (S.getMyFirstWord s).2 = error s
  word : ∀ s, (S.getWord s).1 = (words s).head? ∧ words (S.getWord s).2 = (words s).tail ∧
    records (S.getWord s).2 = records s ∧ error (S.getWord s).2 = error s
  rest : ∀ n s, (S.getRest n s).1 = joined n (words s) ∧ records (S.getRest n s).2 = records s ∧
    error (S.getRest n s).2 = error s

/-- A Name2Name object: the path in HDFS, if it has one for the path. -/
abbrev Name2Name := Bytes → Option Bytes

/-- What the configuration meets with. -/
structure Site (σ : Type) where
  stream : XrdOucStream σ
  contract : stream.Contract
  /-- `open` and `Attach`: the stream of a file, if it can be opened. -/
  attach : Bytes → Option σ
  /-- The entry point of a library, which makes an object from the name of the configuration file and the parameters. -/
  getPlugin : Bytes → Option (Bytes → Bytes → Option Name2Name)
  /-- What `XrdSysError::Emsg` returns for an error number: an error number. -/
  emsg : ℤ → ℤ
  emsg_ne : ∀ ecode, ecode ≠ 0 → emsg ecode ≠ 0

/-! ### The source -/

/-- The fields of `XrdHdfsSys`. -/
structure XrdHdfsSys where
  N2N_Lib : Option Bytes := none
  N2N_Parms : Option Bytes := none
  the_N2N : Option Name2Name := none
  ConfigFN : Option Bytes := none

section Source

variable {σ : Type} (site : Site σ)

/-- `xnml`: the directive `namelib <path> [<parms>]`. -/
def xnml (Config : σ) : Prog XrdHdfsSys (ℤ × σ) :=
  match site.stream.getWord Config with
  | (none, Config) | (some [], Config) => pure (1, Config)
  | (some val, Config) => do
    .step fun sys => ((), { sys with N2N_Lib := some val })
    match site.stream.getRest 1024 Config with
    | (none, Config) => pure (1, Config)
    | (some parms, Config) =>
      .step fun sys => ((0, Config), { sys with N2N_Parms := if parms = [] then none else some parms })

/-- `ConfigXeq`: other directives are not for the plugin. -/
def configXeq (var : Bytes) (Config : σ) : Prog XrdHdfsSys (ℤ × σ) :=
  if var = str "namelib" then xnml site Config else pure (0, Config)

/-- A record. -/
def configTurn (v : ℤ × σ) : Prog XrdHdfsSys ((ℤ × σ) ⊕ (ℤ × σ)) :=
  match site.stream.getMyFirstWord v.2 with
  | (none, Config) => pure (.inr (v.1, Config))
  | (some var, Config) =>
    if var.take 4 = str "oss." then do
      let (rc, Config) ← configXeq site (var.drop 4) Config
      pure (.inl (if rc ≠ 0 then 1 else v.1, Config))
    else pure (.inl (v.1, Config))

/-- `ConfigN2N`. -/
def configN2N : Prog XrdHdfsSys ℤ := .step fun sys =>
  match sys.N2N_Lib.bind site.getPlugin with
  | none => (1, sys)
  | some ep =>
    let the_N2N := ep (sys.ConfigFN.getD []) (sys.N2N_Parms.getD [])
    (if the_N2N.isNone then 1 else 0, { sys with the_N2N })

/-- `if (N2N_Lib) NoGo |= ConfigN2N()`. -/
def configDependent (NoGo : ℤ) : Prog XrdHdfsSys ℤ := do
  let N2N_Lib ← .step fun sys => (sys.N2N_Lib, sys)
  if N2N_Lib.isSome then do
    let rc ← configN2N site
    pure (NoGo.lor rc)
  else pure NoGo

/-- `ConfigProc`. -/
def configProc (Cfn : Option Bytes) : Prog XrdHdfsSys ℤ :=
  match Cfn with
  | none | some [] => pure 1
  | some Cfn =>
    match site.attach Cfn with
    | none => pure 1
    | some Config => do
      .step fun sys => ((), { sys with ConfigFN := some Cfn })
      let (NoGo, Config) ← Prog.loop (configTurn site) (0, Config)
      let NoGo ← configDependent site NoGo
      let retc := site.stream.lastError Config
      pure (if retc ≠ 0 then site.emsg retc else NoGo)

/-- `Configure`. -/
def configure (cfn : Option Bytes) : Prog XrdHdfsSys ℤ := do
  .step fun sys => ((), { sys with N2N_Lib := none, the_N2N := none })
  configProc site cfn

/-- `Init`. -/
def init (configfn : Option Bytes) : Prog XrdHdfsSys ℤ := do
  .step fun sys => ((), { sys with N2N_Lib := none, the_N2N := none })
  configure site configfn

end Source

/-! ### What a file comes to -/

/-- The words behind the `oss.namelib` of each directive. -/
def directives (records : List ConfigRecord) : List (List Bytes) :=
  (records.filter fun r => r.1 = str "oss.namelib").map Prod.snd

section Spec

variable {σ : Type} (site : Site σ)

/-- The library and the parameters of a directive, if it is well formed. -/
def Site.namelib (words : List Bytes) : Option (Bytes × Bytes) :=
  match words with
  | [] | [] :: _ => none
  | path :: words => (site.contract.joined 1024 words).map (path, ·)

/-- The object that the last of the directives asks for: `none` if the library does not give one. -/
def Site.object (Cfn : Bytes) (libs : List (Bytes × Bytes)) : Option (Option Name2Name) :=
  match libs.getLast? with
  | none => some none
  | some (path, parms) => ((site.getPlugin path).bind fun ep => ep Cfn parms).map some

/-- **What the configuration file comes to**: `none` if it is refused, and else the Name2Name object, if there is to be
one. -/
def Site.configuration (Cfn : Option Bytes) : Option (Option Name2Name) := do
  let Cfn ← Cfn
  let Config ← if Cfn = [] then none else site.attach Cfn
  let libs ← (directives (site.contract.records Config)).mapM site.namelib
  if site.contract.error Config = 0 then site.object Cfn libs else none

end Spec

/-! ### Reading the records -/

section Read

variable {σ : Type} {site : Site σ}

theorem directives_append (rs rs' : List ConfigRecord) : directives (rs ++ rs') = directives rs ++ directives rs' := by
  rw [directives, List.filter_append, List.map_append]
  rfl

/-- The word of a directive, as the code compares it. -/
theorem namelib_iff (var : Bytes) : (var.take 4 = str "oss." ∧ var.drop 4 = str "namelib") ↔ var = str "oss.namelib" := by
  constructor
  · rintro ⟨htake, hdrop⟩
    rw [← List.take_append_drop 4 var, htake, hdrop]
    rfl
  · rintro rfl
    exact ⟨rfl, rfl⟩

/-- What `libs`, the directives so far, have left in the plugin; `none` if one of them was not well formed. -/
def Directed (libs : Option (List (Bytes × Bytes))) (NoGo : ℤ) (sys : XrdHdfsSys) : Prop :=
  match libs with
  | none => NoGo = 1
  | some libs => NoGo = 0 ∧ match libs.getLast? with
    | none => sys.N2N_Lib = none
    | some (path, parms) => sys.N2N_Lib = some path ∧ sys.N2N_Parms.getD [] = parms

theorem Directed.cases {libs : Option (List (Bytes × Bytes))} {NoGo : ℤ} {sys : XrdHdfsSys} (h : Directed libs NoGo sys) :
    NoGo = 0 ∨ NoGo = 1 := by
  cases libs with
  | none => exact Or.inr h
  | some libs => exact Or.inl h.1

/-- One more directive. -/
theorem Directed.next {libs : Option (List (Bytes × Bytes))} {NoGo rc : ℤ} {sys sys' : XrdHdfsSys} {words : List Bytes}
    (h : Directed libs NoGo sys) (hnext : Directed ((site.namelib words).map fun l => [l]) rc sys') :
    Directed (do
      let libs ← libs
      let l ← site.namelib words
      pure (libs ++ [l])) (if rc ≠ 0 then 1 else NoGo) sys' := by
  rcases hlib : site.namelib words with _ | l
  · rw [hlib] at hnext
    obtain rfl : rc = 1 := hnext
    cases libs <;> rfl
  · rw [hlib] at hnext
    obtain ⟨rfl, hlast⟩ := hnext
    cases libs with
    | none => exact h
    | some libs =>
      refine ⟨h.1, ?_⟩
      rw [List.getLast?_concat]
      exact hlast

/-- **The directive** `namelib`. -/
theorem xnml_spec (Config : σ) (sys : XrdHdfsSys) :
    Gives (xnml site Config) sys fun r sys' =>
      Directed ((site.namelib (site.contract.words Config)).map fun l => [l]) r.1 sys' ∧
        site.contract.records r.2 = site.contract.records Config ∧ site.contract.error r.2 = site.contract.error Config ∧
        sys'.the_N2N = sys.the_N2N ∧ sys'.ConfigFN = sys.ConfigFN := by
  obtain ⟨hword, hwords, hrecords, herror⟩ := site.contract.word Config
  unfold xnml
  rcases hget : site.stream.getWord Config with ⟨val, Config₁⟩
  rw [hget] at hword hwords hrecords herror
  dsimp only at hword hwords hrecords herror
  subst hword
  rcases hleft : site.contract.words Config with _ | ⟨_ | ⟨c, path⟩, words⟩
  · exact Gives.pure ⟨rfl, hrecords, herror, rfl, rfl⟩
  · exact Gives.pure ⟨rfl, hrecords, herror, rfl, rfl⟩
  · refine Gives.bind (Gives.step ?_)
    obtain ⟨hrest, hrecords', herror'⟩ := site.contract.rest 1024 Config₁
    rcases hparms : site.stream.getRest 1024 Config₁ with ⟨parms, Config₂⟩
    rw [hparms] at hrest hrecords' herror'
    dsimp only at hrest hrecords' herror'
    rw [hwords, hleft, List.tail_cons] at hrest
    have hlib : site.namelib ((c :: path) :: words) = parms.map ((c :: path), ·) := by
      rw [hrest]
      rfl
    rw [hlib]
    rcases parms with _ | parms
    · exact Gives.pure ⟨rfl, hrecords'.trans hrecords, herror'.trans herror, rfl, rfl⟩
    · refine Gives.step ⟨⟨rfl, rfl, ?_⟩, hrecords'.trans hrecords, herror'.trans herror, rfl, rfl⟩
      by_cases hnil : parms = []
      · simp [hnil]
      · simp [hnil]

/-- What the loop keeps: the records that were read, and those that are left, are those of the file. -/
structure ConfigScan (site : Site σ) (Cfn : Bytes) (Config : σ) (v : ℤ × σ) (sys : XrdHdfsSys) : Prop where
  split : ∃ done, site.contract.records Config = done ++ site.contract.records v.2 ∧
    Directed ((directives done).mapM site.namelib) v.1 sys
  error : site.contract.error v.2 = site.contract.error Config
  the_N2N : sys.the_N2N = none
  ConfigFN : sys.ConfigFN = some Cfn

/-- One record. -/
theorem configTurn_spec {Cfn : Bytes} {Config : σ} {v : ℤ × σ} {sys : XrdHdfsSys} (h : ConfigScan site Cfn Config v sys) :
    Gives (configTurn site v) sys fun r sys' => Sum.elim
      (fun v' => ConfigScan site Cfn Config v' sys' ∧
        (site.contract.records v'.2).length < (site.contract.records v.2).length)
      (fun v' => Directed ((directives (site.contract.records Config)).mapM site.namelib) v'.1 sys' ∧
        site.stream.lastError v'.2 = site.contract.error Config ∧ sys'.the_N2N = none ∧ sys'.ConfigFN = some Cfn) r := by
  obtain ⟨⟨done, hsplit, hdir⟩, herror, hN2N, hFN⟩ := h
  unfold configTurn
  rcases hrecords : site.contract.records v.2 with _ | ⟨r, rs⟩
  · obtain ⟨hfirst, hlast⟩ := site.contract.first_nil v.2 hrecords
    rcases hget : site.stream.getMyFirstWord v.2 with ⟨var, Config₁⟩
    rw [hget] at hfirst hlast
    dsimp only at hfirst hlast
    subst hfirst
    rw [hrecords, List.append_nil] at hsplit
    rw [hsplit]
    exact Gives.pure ⟨hdir, hlast.trans herror, hN2N, hFN⟩
  · obtain ⟨hfirst, hwords, hleft, herror'⟩ := site.contract.first_cons v.2 r rs hrecords
    rcases hget : site.stream.getMyFirstWord v.2 with ⟨var, Config₁⟩
    rw [hget] at hfirst hwords hleft herror'
    dsimp only at hfirst hwords hleft herror'
    subst hfirst
    have hsplit' : site.contract.records Config = (done ++ [r]) ++ rs := by
      rw [hsplit, hrecords, List.append_assoc]
      rfl
    -- a record that is no directive of the plugin
    have hother : r.1 ≠ str "oss.namelib" → ConfigScan site Cfn Config (v.1, Config₁) sys ∧
        (site.contract.records Config₁).length < (r :: rs).length := by
      intro hne
      refine ⟨⟨⟨done ++ [r], by rw [hsplit', hleft], ?_⟩, herror'.trans herror, hN2N, hFN⟩, by rw [hleft]; simp⟩
      rw [directives_append, show directives [r] = [] by simp [directives, hne], List.append_nil]
      exact hdir
    refine Gives.ite (fun htake => ?_) fun htake => Gives.pure (hother fun heq => htake ((namelib_iff r.1).2 heq).1)
    unfold configXeq
    by_cases hdrop : r.1.drop 4 = str "namelib"
    · rw [if_pos hdrop]
      have heq := (namelib_iff r.1).1 ⟨htake, hdrop⟩
      refine Gives.bind ((xnml_spec Config₁ sys).mono ?_)
      rintro ⟨rc, Config₂⟩ sys' ⟨hnext, hrecords', herror'', hN2N', hFN'⟩
      dsimp only at hnext hrecords' herror'' ⊢
      refine Gives.pure ⟨⟨⟨done ++ [r], by rw [hsplit', hrecords', hleft], ?_⟩, ?_, hN2N'.trans hN2N, hFN'.trans hFN⟩, ?_⟩
      · rw [directives_append, show directives [r] = [r.2] by simp [directives, heq], List.mapM_append]
        rw [hwords] at hnext
        have hdir' := Directed.next hdir hnext
        simpa [Option.bind_assoc] using hdir'
      · exact herror''.trans (herror'.trans herror)
      · dsimp only
        rw [hrecords', hleft]
        simp
    · rw [if_neg hdrop]
      refine Gives.bind (Gives.pure (Gives.pure ?_))
      exact hother fun heq => hdrop ((namelib_iff r.1).2 heq).2

end Read

/-! ### The Name2Name object -/

section Init

variable {σ : Type} (site : Site σ)

/-- The outcome of a configuration: 0 and the object, if there is to be one, or another return code. -/
def Configured (m : Option (Option Name2Name)) (rc : ℤ) (sys : XrdHdfsSys) : Prop :=
  match m with
  | none => rc ≠ 0
  | some m => rc = 0 ∧ sys.the_N2N = m

/-- **`ConfigN2N`** makes the object of the library, or returns 1. -/
theorem configN2N_spec {Cfn path : Bytes} {sys : XrdHdfsSys} (hFN : sys.ConfigFN = some Cfn)
    (hlib : sys.N2N_Lib = some path) :
    Gives (configN2N site) sys fun rc sys' => (rc = 0 ∨ rc = 1) ∧
      Configured (((site.getPlugin path).bind fun ep => ep Cfn (sys.N2N_Parms.getD [])).map some) rc sys' := by
  refine Gives.step ?_
  rw [hlib, hFN]
  rcases hplugin : site.getPlugin path with _ | ep
  · simp [hplugin, Configured]
  · rcases hep : ep Cfn (sys.N2N_Parms.getD []) with _ | m
    · simp [hplugin, hep, Configured]
    · simp [hplugin, hep, Configured]

/-- What is done when all records have been read. -/
theorem configDependent_spec {Cfn : Bytes} {libs : Option (List (Bytes × Bytes))} {NoGo : ℤ} {sys : XrdHdfsSys}
    (hdir : Directed libs NoGo sys) (hN2N : sys.the_N2N = none) (hFN : sys.ConfigFN = some Cfn) :
    Gives (configDependent site NoGo) sys fun NoGo sys' => Configured (libs.bind (site.object Cfn)) NoGo sys' := by
  refine Gives.bind (Gives.step ?_)
  rcases libs with _ | libs
  · -- a directive was refused: the library is loaded, but that does not help
    obtain rfl : NoGo = 1 := hdir
    refine Gives.ite (fun hlib => ?_) fun _ => Gives.pure one_ne_zero
    obtain ⟨path, hlib⟩ := Option.isSome_iff_exists.1 hlib
    refine Gives.bind ((configN2N_spec site hFN hlib).mono ?_)
    rintro rc sys' ⟨rfl | rfl, -⟩
    · exact Gives.pure one_ne_zero
    · exact Gives.pure one_ne_zero
  · obtain ⟨rfl, hdir⟩ := hdir
    rw [Option.bind_some, Site.object]
    rcases hlast : libs.getLast? with _ | ⟨path, parms⟩
    · rw [hlast] at hdir
      rw [hdir]
      exact Gives.pure ⟨rfl, hN2N⟩
    · rw [hlast] at hdir
      obtain ⟨hlib, rfl⟩ := hdir
      rw [if_pos (by rw [hlib]; rfl)]
      refine Gives.bind ((configN2N_spec site hFN hlib).mono ?_)
      rintro rc sys' ⟨hrc, hconf⟩
      refine Gives.pure ?_
      rcases hrc with rfl | rfl
      · exact hconf
      · exact hconf

/-- **`ConfigProc`**, when there is no object yet. -/
theorem configProc_spec (Cfn : Option Bytes) (sys : XrdHdfsSys) (hLib : sys.N2N_Lib = none) (hN2N : sys.the_N2N = none) :
    Gives (configProc site Cfn) sys fun rc sys' => Configured (site.configuration Cfn) rc sys' := by
  unfold configProc
  rcases Cfn with _ | _ | ⟨c, Cfn⟩
  · exact Gives.pure one_ne_zero
  · exact Gives.pure one_ne_zero
  dsimp only
  rcases hattach : site.attach (c :: Cfn) with _ | Config
  · have hno : site.configuration (some (c :: Cfn)) = none := by simp [Site.configuration, hattach]
    rw [hno]
    exact Gives.pure one_ne_zero
  have hspec : site.configuration (some (c :: Cfn)) =
      ((directives (site.contract.records Config)).mapM site.namelib).bind fun libs =>
        if site.contract.error Config = 0 then site.object (c :: Cfn) libs else none := by
    simp [Site.configuration, hattach]
  refine Gives.bind (Gives.step (Gives.bind ?_))
  have hstart : ConfigScan site (c :: Cfn) Config (0, Config) { sys with ConfigFN := some (c :: Cfn) } :=
    ⟨⟨[], rfl, rfl, hLib⟩, rfl, hN2N, rfl⟩
  refine (Gives.loop (ConfigScan site (c :: Cfn) Config) (fun v _ => (site.contract.records v.2).length)
    (fun v sys h => configTurn_spec h) _ _ hstart).mono ?_
  rintro ⟨NoGo, Config₁⟩ sys₁ ⟨hdir, hlast, hN2N₁, hFN₁⟩
  dsimp only at hdir hlast ⊢
  refine Gives.bind ((configDependent_spec site hdir hN2N₁ hFN₁).mono ?_)
  intro NoGo' sys₂ hconf
  refine Gives.pure ?_
  rw [hlast, hspec]
  by_cases herror : site.contract.error Config = 0
  · simpa [herror] using hconf
  · simpa [herror, Configured] using site.emsg_ne _ herror

theorem init_configured (configfn : Option Bytes) (sys : XrdHdfsSys) :
    Gives (init site configfn) sys fun rc sys' => Configured (site.configuration configfn) rc sys' :=
  Gives.bind (Gives.step (Gives.bind (Gives.step (configProc_spec site configfn _ rfl rfl))))

/-- **The configuration is that of the file.**  Whatever an earlier `Init` has left, and whatever the stream and the
libraries are: `Init` returns 0 just if the file is not refused, and then it has left what the file comes to. -/
theorem init_configuration (configfn : Option Bytes) (sys : XrdHdfsSys) :
    Gives (init site configfn) sys fun rc sys' =>
      (rc = 0 ↔ (site.configuration configfn).isSome) ∧ (rc = 0 → site.configuration configfn = some sys'.the_N2N) := by
  refine (init_configured site configfn sys).mono ?_
  intro rc sys' hconf
  rcases hm : site.configuration configfn with _ | m
  · rw [hm] at hconf
    exact ⟨iff_of_false hconf (by simp), fun h0 => absurd h0 hconf⟩
  · rw [hm] at hconf
    exact ⟨iff_of_true hconf.1 rfl, fun _ => congrArg some hconf.2.symm⟩

end Init

/-! ### A file that has been cut into records -/

/-- The stream of the words that are left and the records to come. -/
def recordStream : XrdOucStream (List Bytes × List ConfigRecord) where
  getMyFirstWord s :=
    match s.2 with
    | [] => (none, s)
    | r :: rs => (some r.1, r.2, rs)
  getWord s := (s.1.head?, s.1.tail, s.2)
  getRest n s := (if ([32].intercalate s.1).length < n then some ([32].intercalate s.1) else none, [], s.2)
  lastError _ := 0

/-- It keeps what is promised. -/
def recordStream.contract : recordStream.Contract where
  words s := s.1
  records s := s.2
  error _ := 0
  joined n words := if ([32].intercalate words).length < n then some ([32].intercalate words) else none
  first_nil s h := by
    obtain ⟨words, records⟩ := s
    subst h
    exact ⟨rfl, rfl⟩
  first_cons s r rs h := by
    obtain ⟨words, records⟩ := s
    subst h
    exact ⟨rfl, rfl, rfl, rfl⟩
  word _ := ⟨rfl, rfl, rfl, rfl⟩
  rest _ _ := ⟨rfl, rfl, rfl⟩

/-- Every file has these records; there is one library, which puts its parameters in front of a path. -/
def recordSite (records : List ConfigRecord) : Site (List Bytes × List ConfigRecord) where
  stream := recordStream
  contract := recordStream.contract
  attach _ := some ([], records)
  getPlugin path := if path = str "libn2n.so" then some fun _ parms => some fun path => some (parms ++ path) else none
  emsg := id
  emsg_ne _ h := h

/-- The second of two directives counts. -/
def someRecords : List ConfigRecord :=
  [(str "oss.namelib", [str "other.so"]), (str "oss.localroot", [str "/"]), (str "oss.namelib", [str "libn2n.so", str "/x"])]

example : ((init (recordSite someRecords) (some (str "/c"))).run 9 { N2N_Parms := some (str "old") }).map
    (fun r => (r.1, r.2.N2N_Lib, r.2.the_N2N.map (· (str "/a")))) =
      some (0, some (str "libn2n.so"), some (some (str "/x/a"))) := by
  decide +kernel

end XrdHdfs
