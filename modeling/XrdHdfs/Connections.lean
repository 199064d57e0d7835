import Mathlib.Data.List.TakeWhile
import XrdHdfs.Basic

/-!
# Connections and identities

`hadoop_connect` keeps a connection for each user it was asked for; the `cmsd` asks for `root` and keeps its connection
apart as well.  `ExtractAuthName` says for whom a client connects.

`never_cross_iff`: identities are kept apart if and only if every client that is connected and has a `request.name` is
asked for under that name, which a name of one character is not.  The invariant is that the map leads each user to the
instance that was opened for it; a run of requests keeps it by induction.
-/

namespace XrdHdfs

/-! ### Who a client is -/

/-- A C string. -/
structure CString where
  bytes : Bytes
  not_mem_zero : 0 ∉ bytes

/-- `XrdSecEntity`, as far as it is read: the name, which may be `NULL`, and the attributes. -/
structure XrdSecEntity where
  name : Option CString
  eaAPI : Bytes → Option Bytes

/-- `XrdOucEnv`, as far as it is read. -/
structure XrdOucEnv where
  secEnv : Option XrdSecEntity

/-- `sec->name ? sec->name : "nobody"`. -/
def XrdSecEntity.nameOrNobody (sec : XrdSecEntity) : Bytes :=
  match sec.name with
  | some name => name.bytes
  | none => str "nobody"

/-- `ExtractAuthName`; `none` is a null pointer. -/
def extractAuthName (client : Option XrdOucEnv) : Bytes :=
  match client.bind (·.secEnv) with
  | some sec =>
    match sec.eaAPI (str "request.name") with
    -- Ensure username is not blank.
    | some username => if 1 < username.length then username else sec.nameOrNobody
    | none => sec.nameOrNobody
  | none => str "nobody"

/-! ### The connections -/

/-- The map of the connections, the connection of the `cmsd`, and for whom `hdfsConnectAsUserNewInstance` opened an
instance.  A handle is the number of its instance. -/
structure Connections where
  g_fs_map : Bytes → Option ℕ := fun _ => none
  m_cmsd_fs : Option ℕ := none
  opened : List Bytes := []

/-- What asks for a connection: an operation of a client, or a `Stat` without one. -/
inductive ConnectRequest where
  | client (envp : Option XrdOucEnv)
  | cmsd

namespace Connections

/-- `hadoop_connect(instance, port, username)`; `connects` tells whether HDFS would give a new instance. -/
def hadoop_connect (username : Bytes) (connects : Bool) (s : Connections) : Option ℕ × Connections :=
  match s.g_fs_map username with
  | some fs => (some fs, s)
  | none =>
    if connects then
      (some s.opened.length,
        { s with
          g_fs_map := Function.update s.g_fs_map username (some s.opened.length)
          opened := s.opened ++ [username] })
    else (none, s)

/-- A request: `hadoop_connect(client)`, or the part of `Stat` that connects without a client. -/
def connect (connects : Bool) (s : Connections) : ConnectRequest → Option ℕ × Connections
  | .client envp => s.hadoop_connect (cstr (extractAuthName envp)) connects
  | .cmsd =>
    match s.m_cmsd_fs with
    | some fs => (some fs, s)
    | none =>
      let (fs, s) := s.hadoop_connect (str "root") connects
      (fs, { s with m_cmsd_fs := fs })

end Connections

/-- A request that was answered. -/
structure ConnectStep where
  before : Connections
  request : ConnectRequest
  result : Option ℕ
  after : Connections

/-- Requests one after the other, and for each whether HDFS would give a new instance. -/
def Connections.run : List (ConnectRequest × Bool) → Connections → List ConnectStep × Connections
  | [], s => ([], s)
  | (request, connects) :: requests, s =>
    let (result, s') := s.connect connects request
    let (steps, s'') := run requests s'
    (⟨s, request, result, s'⟩ :: steps, s'')

/-! ### Identities -/

namespace ConnectRequest

/-- For whom a client acts: its `request.name` when this is not empty, or else its name, or `nobody`. -/
def effectiveUser : ConnectRequest → Bytes
  | .client envp =>
    match envp.bind (·.secEnv) with
    | some sec =>
      match sec.eaAPI (str "request.name") with
      | some username => if username = [] then sec.nameOrNobody else username
      | none => sec.nameOrNobody
    | none => str "nobody"
  | .cmsd => str "root"

/-- The name that is looked up in the map. -/
def username : ConnectRequest → Bytes
  | .client envp => cstr (extractAuthName envp)
  | .cmsd => str "root"

/-- A `request.name` has more than one character and no NUL; or it is one character that is the client's name too. -/
def Named : ConnectRequest → Prop
  | .client envp => ∀ sec, envp.bind (·.secEnv) = some sec → ∀ name, sec.eaAPI (str "request.name") = some name →
      name ≠ [] → if name.length = 1 then name = sec.nameOrNobody else 0 ∉ name
  | .cmsd => True

theorem cstr_nameOrNobody (sec : XrdSecEntity) : cstr sec.nameOrNobody = sec.nameOrNobody := by
  unfold XrdSecEntity.nameOrNobody
  rcases sec.name with _ | name
  · rfl
  · exact cstr_eq_self name.not_mem_zero

/-- A client is looked up as the user it acts for exactly when it is named. -/
theorem username_eq_iff (r : ConnectRequest) : r.username = r.effectiveUser ↔ r.Named := by
  cases r with
  | cmsd => exact iff_of_true rfl True.intro
  | client envp =>
    unfold username effectiveUser Named extractAuthName
    dsimp only
    generalize (envp.bind fun envp => envp.secEnv) = sec?
    rcases sec? with _ | sec
    · exact iff_of_true rfl (by simp)
    simp only [Option.some.injEq, forall_eq']
    rcases sec.eaAPI (str "request.name") with _ | name
    · exact iff_of_true (cstr_nameOrNobody sec) (by simp)
    simp only [Option.some.injEq, forall_eq']
    rcases name with _ | ⟨c, _ | ⟨d, name⟩⟩
    · exact iff_of_true (cstr_nameOrNobody sec) (fun h => absurd rfl h)
    · simp only [List.length_singleton, lt_irrefl, if_false, if_true, reduceCtorEq, cstr_nameOrNobody]
      exact ⟨fun h _ => h.symm, fun h => (h (by simp)).symm⟩
    · have hlen : 1 < (c :: d :: name).length := by simp
      rw [if_pos hlen, if_neg (by simp), if_neg hlen.ne']
      exact ⟨fun h _ => mem_zero_of_cstr h, fun h => cstr_eq_self (h (by simp))⟩

end ConnectRequest

/-! ### The invariant -/

namespace Connections

/-- What was opened stays. -/
theorem getElem?_of_prefix {l l' : List Bytes} (h : l <+: l') {fs : ℕ} {user : Bytes} (hfs : l[fs]? = some user) :
    l'[fs]? = some user := by
  obtain ⟨t, rfl⟩ := h
  obtain ⟨hlt, -⟩ := List.getElem?_eq_some_iff.1 hfs
  rw [List.getElem?_append_left hlt, hfs]

/-- The map leads each user to the one instance that was opened for it. -/
structure Inv (s : Connections) : Prop where
  mapped : ∀ user fs, s.g_fs_map user = some fs → s.opened[fs]? = some user
  kept : ∀ user ∈ s.opened, s.g_fs_map user ≠ none
  once : s.opened.Nodup
  cmsd : ∀ fs, s.m_cmsd_fs = some fs → s.opened[fs]? = some (str "root")

/-- What a request does: it leads to an instance of the user that is looked up, and what was opened stays; a failure
changes nothing. -/
structure Connects (s : Connections) (username : Bytes) (result : Option ℕ) (s' : Connections) : Prop where
  inv : s'.Inv
  grows : s.opened <+: s'.opened
  handle : ∀ fs, result = some fs → s'.opened[fs]? = some username
  failed : result = none → s' = s

theorem Inv.hadoop_connect {s : Connections} (h : s.Inv) (username : Bytes) (connects : Bool) :
    Connects s username (s.hadoop_connect username connects).1 (s.hadoop_connect username connects).2 := by
  unfold Connections.hadoop_connect
  rcases hmap : s.g_fs_map username with _ | fs
  swap
  · exact ⟨h, List.prefix_rfl, fun fs' hfs => Option.some.inj hfs ▸ h.mapped username fs hmap,
      fun hnone => absurd hnone (by simp)⟩
  cases connects with
  | false => exact ⟨h, List.prefix_rfl, fun fs hfs => absurd hfs (by simp), fun _ => rfl⟩
  | true =>
    simp only [if_true]
    have hold : ∀ (fs : ℕ) (user : Bytes), s.opened[fs]? = some user → (s.opened ++ [username])[fs]? = some user :=
      fun fs user hfs => getElem?_of_prefix (List.prefix_append _ _) hfs
    have hnew : (s.opened ++ [username])[s.opened.length]? = some username := List.getElem?_concat_length
    refine ⟨⟨fun user fs hfs => ?_, fun user huser => ?_, ?_, fun fs hfs => hold fs _ (h.cmsd fs hfs)⟩,
      List.prefix_append _ _, fun fs hfs => Option.some.inj hfs ▸ hnew, fun hnone => absurd hnone (by simp)⟩
    · dsimp only at hfs ⊢
      rcases eq_or_ne user username with rfl | hne
      · rw [Function.update_self] at hfs
        exact Option.some.inj hfs ▸ hnew
      · rw [Function.update_of_ne hne] at hfs
        exact hold fs user (h.mapped user fs hfs)
    · dsimp only at huser ⊢
      rcases eq_or_ne user username with rfl | hne
      · simp
      · rw [Function.update_of_ne hne]
        refine h.kept user ?_
        simpa [hne] using huser
    · refine List.nodup_append.2 ⟨h.once, by simp, fun a ha b hb => ?_⟩
      rintro rfl
      obtain rfl := List.mem_singleton.1 hb
      exact h.kept a ha hmap

/-- **One request.** -/
theorem Inv.connect {s : Connections} (h : s.Inv) (connects : Bool) (r : ConnectRequest) :
    Connects s r.username (s.connect connects r).1 (s.connect connects r).2 := by
  cases r with
  | client envp => exact h.hadoop_connect _ connects
  | cmsd =>
    unfold Connections.connect
    rcases hc : s.m_cmsd_fs with _ | fs
    · have hroot := h.hadoop_connect (str "root") connects
      refine ⟨⟨hroot.inv.mapped, hroot.inv.kept, hroot.inv.once, hroot.handle⟩, hroot.grows, hroot.handle, fun hnone => ?_⟩
      dsimp only at hnone ⊢
      rw [hroot.failed hnone, hnone, ← hc]
    · exact ⟨h, List.prefix_rfl, fun fs' hfs => Option.some.inj hfs ▸ h.cmsd fs hc, fun hnone => absurd hnone (by simp)⟩

/-- **A run of requests.** -/
theorem Inv.run {s : Connections} (h : s.Inv) (requests : List (ConnectRequest × Bool)) :
    (s.run requests).2.Inv ∧ s.opened <+: (s.run requests).2.opened ∧ ∀ st ∈ (s.run requests).1,
      Connects st.before st.request.username st.result st.after ∧ st.after.opened <+: (s.run requests).2.opened := by
  induction requests generalizing s with
  | nil => exact ⟨h, List.prefix_rfl, by simp [Connections.run]⟩
  | cons r requests ih =>
    have hstep := h.connect r.2 r.1
    obtain ⟨hinv, hgrows, hsteps⟩ := ih hstep.inv
    refine ⟨hinv, hstep.grows.trans hgrows, fun st hst => ?_⟩
    rcases List.mem_cons.1 hst with rfl | hst
    · exact ⟨hstep, hgrows⟩
    · exact hsteps st hst

theorem inv_start : Inv {} where
  mapped _ _ h := by cases h
  kept _ h := by cases h
  once := List.nodup_nil
  cmsd _ h := by cases h

/-- **Identities are kept apart** in a run: what a request gets was opened for the user it acts for, two requests that
get the same act for the same user, each user has one instance at most, and a failure changes nothing. -/
structure NeverCross (run : List ConnectStep × Connections) : Prop where
  own : ∀ st ∈ run.1, ∀ fs, st.result = some fs → st.after.opened[fs]? = some st.request.effectiveUser
  shared : ∀ st ∈ run.1, ∀ st' ∈ run.1, ∀ fs, st.result = some fs → st'.result = some fs →
    st.request.effectiveUser = st'.request.effectiveUser
  once : run.2.opened.Nodup
  failed : ∀ st ∈ run.1, st.result = none → st.after = st.before

/-- **When identities are kept apart**, in every run of requests from the start: if and only if every client that is
connected is named. -/
theorem never_cross_iff (requests : List (ConnectRequest × Bool)) :
    NeverCross (run requests {}) ↔ ∀ st ∈ (run requests {}).1, st.result ≠ none → st.request.Named := by
  obtain ⟨hinv, -, hsteps⟩ := inv_start.run requests
  constructor
  · intro h st hst hne
    obtain ⟨fs, hfs⟩ := Option.ne_none_iff_exists'.1 hne
    have hopened := (hsteps st hst).1.handle fs hfs
    rw [h.own st hst fs hfs, Option.some.injEq] at hopened
    exact st.request.username_eq_iff.1 hopened.symm
  · intro h
    have huser : ∀ st ∈ (run requests {}).1, ∀ fs, st.result = some fs → st.request.username = st.request.effectiveUser :=
      fun st hst fs hfs => st.request.username_eq_iff.2 (h st hst (by simp [hfs]))
    -- what was opened stays, so that a handle has one user
    have hfinal : ∀ st ∈ (run requests {}).1, ∀ fs, st.result = some fs →
        (run requests {}).2.opened[fs]? = some st.request.username := by
      intro st hst fs hfs
      obtain ⟨hconnects, hgrows⟩ := hsteps st hst
      exact getElem?_of_prefix hgrows (hconnects.handle fs hfs)
    refine ⟨fun st hst fs hfs => ?_, fun st hst st' hst' fs hfs hfs' => ?_, hinv.once,
      fun st hst => (hsteps st hst).1.failed⟩
    · rw [← huser st hst fs hfs]
      exact (hsteps st hst).1.handle fs hfs
    · have hsame := hfinal st hst fs hfs
      rw [hfinal st' hst' fs hfs', Option.some.injEq] at hsame
      rw [← huser st hst fs hfs, ← huser st' hst' fs hfs', hsame]

/-- A client with a `request.name` behind the same gateway. -/
def gatewayClient (name : Bytes) : ConnectRequest :=
  .client (some ⟨some ⟨some ⟨str "gateway", by decide⟩, fun key => if key = str "request.name" then some name else none⟩⟩)

/-- Two users with names of one character share the connection of their gateway. -/
theorem short_names_cross : ¬ NeverCross (run [(gatewayClient (str "a"), true), (gatewayClient (str "b"), true)] {}) := by
  intro h
  have hshared := h.shared _ List.mem_cons_self _ (List.mem_cons_of_mem _ List.mem_cons_self) 0 (by decide +kernel)
    (by decide +kernel)
  exact absurd hshared (by decide +kernel)

end Connections

end XrdHdfs
