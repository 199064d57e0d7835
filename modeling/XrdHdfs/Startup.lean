import XrdHdfs.Config
import XrdHdfs.File
import XrdHdfs.LoadJvm

/-!
# How the server gets the plugin

`XrdOssGetStorageSystem` of the bootstrap library runs a command for the environment, loads the JVM and the library of the
plugin, and has that configure itself.  Each of these may fail; then it returns nothing, and the next call starts again,
with what the failed one has left in the process.  A plugin that was made is kept.

`Attempt` is what one call meets with.  Whether it would make the plugin depends on that alone (`Attempt.succeeds`), and
`startup` says so of any sequence of calls: the first that succeeds makes the plugin, with its own configuration, and after
it nothing is done any more.
-/

namespace XrdHdfs

open Lib

/-! ### The source -/

/-- How a command has ended, as `pclose` tells: it does not know, by a call of `exit`, or otherwise. -/
inductive Exit where
  | unknown
  | exited (code : ℕ)
  | otherwise

/-- What a call of `XrdOssGetStorageSystem` meets with. -/
structure Attempt (σ : Type) where
  /-- What the command writes and how it ends; `none` when `popen` does not start it. -/
  child : Option (Bytes × Exit)
  /-- The memory of the buffer of `loadJvm`. -/
  stack : ℕ → UInt8 := fun _ => 0
  loadable : Bytes → Bool
  /-- The library of the plugin is loaded and has its entry point. -/
  getPlugin : Bool
  config_fn : Option Bytes
  site : Site σ

/-- The process: its variables, the commands that it has started and the searches for the JVM, the two variables
`g_hdfs_oss`, of the bootstrap and of the plugin, and the plugin. -/
structure Process where
  vars : Environment := fun _ => none
  children : ℕ := 0
  searches : List JvmLog := []
  bootstrap_g_hdfs_oss : Bool := false
  g_hdfs_oss : Bool := false
  sys : XrdHdfsSys := {}

section Source

variable {σ : Type}

/-- `setenv` for the variables that the command has written. -/
def setenv (output : Environment) (vars : Environment) : Environment := fun x => (output x).or (vars x)

/-- `DetermineEnvironment`, and what it returns. -/
def runEnvironment (child : Option (Bytes × Exit)) : Prog Process ℤ := do
  .step fun p => ((), { p with children := p.children + 1 })
  match child with
  | none => pure 1
  | some (fp, exit) => do
    .step fun p => ((), { p with vars := setenv (determineEnvironment fp) p.vars })
    match exit with
    | .exited 0 => pure 0
    | _ => pure 1

/-- `XrdOssGetStorageSystem` of the plugin. -/
def realGetStorageSystem (site : Site σ) (config_fn : Option Bytes) : Prog Process Bool := do
  let NoGo ← (init site config_fn).zoom Process.sys fun sys p => { p with sys }
  .step fun p => (NoGo = 0, { p with g_hdfs_oss := NoGo = 0 })

/-- `Bootstrap`. -/
def bootstrap (a : Attempt σ) : Prog Process Bool := do
  let rc ← runEnvironment a.child
  if rc ≠ 0 then pure false
  else do
    let vars ← .step fun p => (p.vars, p)
    let _ ← (loadJvm a.loadable a.stack vars).zoom (fun _ => {}) fun log p => { p with searches := p.searches ++ [log] }
    if a.getPlugin then realGetStorageSystem a.site a.config_fn else pure false

/-- `XrdOssGetStorageSystem` of the bootstrap library. -/
def getStorageSystem (a : Attempt σ) : Prog Process Bool := do
  let g_hdfs_oss ← .step fun p => (p.bootstrap_g_hdfs_oss, p)
  if g_hdfs_oss then pure true
  else do
    let result ← bootstrap a
    if result then .step fun p => (true, { p with bootstrap_g_hdfs_oss := true }) else pure false

/-- One call after the other. -/
def startups : List (Attempt σ) → Prog Process (List Bool)
  | [] => pure []
  | a :: as => do
    let result ← getStorageSystem a
    let results ← startups as
    pure (result :: results)

end Source

/-- What serves the requests: the mapping of paths, and the plugin that the checksum manager has. -/
def Process.env (p : Process) (Z : Digests) (cks : CksLib) : Env :=
  { Z, cks, the_N2N := p.sys.the_N2N, g_hdfs_oss := p.bootstrap_g_hdfs_oss }

/-! ### What a call comes to -/

section Spec

variable {σ : Type}

/-- The variables after the command. -/
def Attempt.exports (a : Attempt σ) (vars : Environment) : Environment :=
  match a.child with
  | none => vars
  | some (fp, _) => setenv (determineEnvironment fp) vars

/-- The command ends as it should, there is the library, and the configuration is not refused. -/
def Attempt.succeeds (a : Attempt σ) : Bool :=
  match a.child with
  | some (_, .exited 0) => a.getPlugin && (a.site.configuration a.config_fn).isSome
  | _ => false

end Spec

section Results

variable {σ : Type}

theorem loadJvm_gives (loadable : Bytes → Bool) (stack : ℕ → UInt8) (vars : Environment) :
    Gives (loadJvm loadable stack vars) {} fun _ _ => True := by
  cases hvars : vars .ld_library_path with
  | none =>
    unfold loadJvm
    rw [hvars]
    exact Gives.pure trivial
  | some value => exact (search_spec loadable stack value hvars).mono fun _ _ _ => trivial

/-- **`DetermineEnvironment`**: the variables are set however the command ends. -/
theorem runEnvironment_spec (a : Attempt σ) (p : Process) :
    Gives (runEnvironment a.child) p fun rc p' =>
      (rc = 0 ↔ ∃ fp, a.child = some (fp, .exited 0)) ∧
        p' = { p with children := p.children + 1, vars := a.exports p.vars } := by
  refine Gives.bind (Gives.step ?_)
  unfold Attempt.exports
  rcases a.child with _ | ⟨fp, exit⟩
  · exact Gives.pure ⟨by simp, rfl⟩
  · refine Gives.bind (Gives.step ?_)
    rcases exit with _ | ⟨_ | code⟩ | _
    · exact Gives.pure ⟨by simp, rfl⟩
    · exact Gives.pure ⟨by simp, rfl⟩
    · exact Gives.pure ⟨by simp, rfl⟩
    · exact Gives.pure ⟨by simp, rfl⟩

/-- What a call does when there is no plugin yet. -/
structure Attempted (a : Attempt σ) (p : Process) (result : Bool) (p' : Process) : Prop where
  made : result = a.succeeds
  children : p'.children = p.children + 1
  vars : p'.vars = a.exports p.vars
  plugin : result = true → p'.g_hdfs_oss = true ∧ a.site.configuration a.config_fn = some p'.sys.the_N2N

/-- **The plugin configures itself.** -/
theorem realGetStorageSystem_spec (site : Site σ) (config_fn : Option Bytes) (p : Process) :
    Gives (realGetStorageSystem site config_fn) p fun result p' =>
      result = (site.configuration config_fn).isSome ∧ p'.children = p.children ∧ p'.vars = p.vars ∧
        p'.bootstrap_g_hdfs_oss = p.bootstrap_g_hdfs_oss ∧
        (result = true → p'.g_hdfs_oss = true ∧ site.configuration config_fn = some p'.sys.the_N2N) := by
  refine Gives.bind (Gives.zoom _ _ ((init_configured site config_fn p.sys).mono ?_))
  intro NoGo sys hconf
  refine Gives.step ⟨?_, rfl, rfl, rfl, fun h => ?_⟩
  · rcases hm : site.configuration config_fn with _ | m
    · rw [hm] at hconf
      exact decide_eq_false hconf
    · rw [hm] at hconf
      exact decide_eq_true hconf.1
  · refine ⟨h, ?_⟩
    have h0 : NoGo = 0 := of_decide_eq_true h
    rcases hm : site.configuration config_fn with _ | m
    · rw [hm] at hconf
      exact absurd h0 hconf
    · rw [hm] at hconf
      exact congrArg some hconf.2.symm

/-- **A call** when there is no plugin yet. -/
theorem getStorageSystem_fresh (a : Attempt σ) {p : Process} (hp : p.bootstrap_g_hdfs_oss = false) :
    Gives (getStorageSystem a) p fun result p' => Attempted a p result p' ∧ p'.bootstrap_g_hdfs_oss = result := by
  refine Gives.bind (Gives.step ?_)
  rw [hp, if_neg Bool.false_ne_true]
  refine Gives.bind (Gives.bind ((runEnvironment_spec a p).mono ?_))
  rintro rc p₁ ⟨hrc, rfl⟩
  refine Gives.ite (fun hne => ?_) fun h0 => ?_
  · -- the command has not ended as it should
    refine Gives.pure (Gives.pure ⟨⟨?_, rfl, rfl, fun h => by cases h⟩, hp⟩)
    have hno := fun h => hne (hrc.2 h)
    unfold Attempt.succeeds
    split
    · exact absurd ⟨_, ‹_›⟩ hno
    · rfl
  · obtain ⟨fp, hchild⟩ := hrc.1 (not_not.1 h0)
    have hsucceeds : a.succeeds = (a.getPlugin && (a.site.configuration a.config_fn).isSome) := by
      unfold Attempt.succeeds
      rw [hchild]
      rfl
    refine Gives.bind (Gives.step (Gives.bind (Gives.zoom _ _ ((loadJvm_gives a.loadable a.stack _).mono ?_))))
    intro _ log _
    by_cases hplugin : a.getPlugin
    · rw [if_pos hplugin]
      rw [hplugin, Bool.true_and] at hsucceeds
      refine (realGetStorageSystem_spec a.site a.config_fn _).mono ?_
      rintro result p₂ ⟨hresult, hchildren, hvars, hboot, hmade⟩
      cases result with
      | false => exact Gives.pure ⟨⟨hresult.trans hsucceeds.symm, hchildren, hvars, hmade⟩, hboot.trans hp⟩
      | true => exact Gives.step ⟨⟨hresult.trans hsucceeds.symm, hchildren, hvars, hmade⟩, rfl⟩
    · rw [if_neg hplugin]
      refine Gives.pure (Gives.pure ⟨⟨?_, rfl, rfl, fun h => by cases h⟩, hp⟩)
      rw [hsucceeds, Bool.eq_false_iff.2 hplugin, Bool.false_and]

/-- Calls when there is a plugin. -/
theorem startups_made (as : List (Attempt σ)) {p : Process} (hp : p.bootstrap_g_hdfs_oss = true) :
    Gives (startups as) p fun results p' => results = as.map (fun _ => true) ∧ p' = p := by
  induction as with
  | nil => exact Gives.pure ⟨rfl, rfl⟩
  | cons a as ih =>
    refine Gives.bind (Gives.bind (Gives.step ?_))
    rw [if_pos hp]
    refine Gives.pure (Gives.bind (ih.mono ?_))
    rintro results p' ⟨rfl, rfl⟩
    exact Gives.pure ⟨rfl, rfl⟩

/-- What a sequence of calls comes to: those that have failed, and the first that succeeds with all the others. -/
structure Started (failed rest : List (Attempt σ)) (p : Process) (results : List Bool) (p' : Process) : Prop where
  before : ∀ a ∈ failed, a.succeeds = false
  first : ∀ a ∈ rest.head?, a.succeeds = true
  returned : results = failed.map (fun _ => false) ++ rest.map (fun _ => true)
  children : p'.children = p.children + (failed ++ rest.head?.toList).length
  vars : p'.vars = (failed ++ rest.head?.toList).foldl (fun vars a => a.exports vars) p.vars
  serves : ∀ a ∈ rest.head?, p'.g_hdfs_oss = true ∧ ∃ m, a.site.configuration a.config_fn = some m ∧
    ∀ Z cks, p'.env Z cks = { Z, cks, the_N2N := m, g_hdfs_oss := true }

/-- **Any sequence of calls.**  Every call before the first that succeeds returns nothing, and every call from it on the
plugin.  The commands of the calls up to that one are run, and no other; the process has the variables that they have
written, the later ones over the earlier; and the requests are served with the Name2Name object of its configuration,
whatever the failed calls have left. -/
theorem startup (as : List (Attempt σ)) (p : Process) (hp : p.bootstrap_g_hdfs_oss = false) :
    Gives (startups as) p fun results p' => ∃ failed rest, as = failed ++ rest ∧ Started failed rest p results p' := by
  induction as generalizing p with
  | nil => exact Gives.pure ⟨[], [], rfl, by simp, by simp, rfl, rfl, rfl, by simp⟩
  | cons a as ih =>
    refine Gives.bind ((getStorageSystem_fresh a hp).mono ?_)
    rintro result p₁ ⟨⟨hresult, hchildren, hvars, hplugin⟩, hboot⟩
    cases result with
    | true =>
      obtain ⟨hoss, hconf⟩ := hplugin rfl
      refine Gives.bind ((startups_made as hboot).mono ?_)
      rintro results p₂ ⟨rfl, rfl⟩
      refine Gives.pure ⟨[], a :: as, rfl, by simp, ?_, rfl, hchildren, hvars, ?_⟩
      · rintro b ⟨⟩
        exact hresult.symm
      · rintro b ⟨⟩
        refine ⟨hoss, _, hconf, fun Z cks => ?_⟩
        rw [Process.env, hboot]
    | false =>
      refine Gives.bind ((ih p₁ hboot).mono ?_)
      rintro results p₂ ⟨failed, rest, rfl, hfailed, hhead, rfl, hchildren', hvars', hserves⟩
      refine Gives.pure ⟨a :: failed, rest, rfl, ?_, hhead, rfl, ?_, ?_, hserves⟩
      · exact List.forall_mem_cons.2 ⟨hresult.symm, hfailed⟩
      · rw [hchildren', hchildren, List.cons_append, List.length_cons]
        omega
      · rw [hvars', hvars, List.cons_append, List.foldl_cons]

end Results

/-- A call whose command fails when it has written a variable, one with a good command and a good configuration, and one
that is not needed. -/
def someAttempts : List (Attempt (List Bytes × List ConfigRecord)) :=
  [{ child := some (str "LIBHDFS_OPTS=x\n", .exited 1), loadable := fun _ => false, getPlugin := true,
     config_fn := some (str "/c"), site := recordSite [] },
    { child := some (str "CLASSPATH=y\n", .exited 0), loadable := fun _ => false, getPlugin := true,
      config_fn := some (str "/c"), site := recordSite someRecords },
    { child := none, loadable := fun _ => false, getPlugin := false, config_fn := none, site := recordSite [] }]

theorem startup_third : Gives (startups someAttempts) {} fun results p' =>
    ∃ failed rest, someAttempts = failed ++ rest ∧ Started failed rest {} results p' :=
  startup someAttempts {} rfl

example : ((startups someAttempts).run 9 {}).map (fun r => (r.1, r.2.children, r.2.vars .libhdfs_opts, r.2.sys.N2N_Lib)) =
    some ([false, true, true], 2, some (str "x\n"), some (str "libn2n.so")) := by
  decide +kernel

end XrdHdfs
