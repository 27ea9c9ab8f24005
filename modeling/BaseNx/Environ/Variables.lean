import BaseNx.Errno
import Mathlib.Data.List.TakeWhile
import Mathlib.Tactic

/-!
# Environment variables

`env_findvar`, `setenv`, `unsetenv` and `getenv` of `sched/environ`. A pointer is the list of the
bytes from there on, to the end of the name or of the environment; a function that reads behind the
end has no result. The loop of `env_cmpname` ends at a difference only, and `setenv` removes the old
variable before it has the memory for the new one.
-/

namespace BaseNx.Environ

open List

/-- The sign that ends the name of a variable. -/
abbrev equalSign : UInt8 := 61

/-- `tg_envp`, if it is not `NULL`, with the bytes below `tg_envsize`. -/
abbrev Environment := Option (List UInt8)

def envCmpname : (pszname peqname : List UInt8) → Option Bool
  | c :: pszname, d :: peqname =>
    if c = d then envCmpname pszname peqname else some (c = 0 ∧ d = equalSign)
  | _, _ => none

/-- The loop of `env_findvar` over the bytes that are left; inside an entry it looks for its end, as
`strlen` does. -/
def findFrom (pname : List UInt8) : (inside : Bool) → List UInt8 → Option (Option (List UInt8))
  | false, [] => some none
  | true, [] => none
  | true, c :: rest => findFrom pname (c ≠ 0) rest
  | false, c :: rest =>
    match envCmpname pname (c :: rest) with
    | none => none
    | some true => some (some (c :: rest))
    | some false => findFrom pname (c ≠ 0) rest

/-- `env_findvar` of a name without its terminator. -/
def envFindvar (env : Environment) (name : List UInt8) : Option (Option (List UInt8)) :=
  findFrom (name ++ [0]) false (env.getD [])

def getenv (env : Environment) : (name : Option (List UInt8)) → Option (Option (List UInt8))
  | none => some none
  | some name => (envFindvar env name).map fun pvar => pvar.bind fun pvar =>
    let entry := pvar.takeWhile (· ≠ 0)
    if equalSign ∈ entry then some (entry.dropWhile (· ≠ equalSign)).tail else none

def envRemovevar (envp pvar : List UInt8) : List UInt8 :=
  envp.take (envp.length - pvar.length) ++ (pvar.dropWhile (· ≠ 0)).tail

/-- `unsetenv`; `ok` is whether there is memory, and a size of zero is never reallocated. -/
def unsetenv (ok : Bool) (env : Environment) (name : List UInt8) : Option (Int × Environment) := do
  match ← envFindvar env name with
  | none => some (OK, env)
  | some pvar =>
    let envp := envRemovevar (env.getD []) pvar
    some (if ok ∧ 0 < envp.length then OK else ERROR, some envp)

def setenv (ok : Bool) (env : Environment) (name value : Option (List UInt8)) (overwrite : Bool) :
    Option (Int × Environment) :=
  match name with
  | none => some (ERROR, env)
  | some name =>
    match value.getD [] with
    | [] => if overwrite then unsetenv ok env name else some (OK, env)
    | c :: value => do
      let pvar ← envFindvar env name
      if pvar.isSome ∧ ¬ overwrite then some (OK, env)
      else
        let env := match pvar with
          | some pvar => some (envRemovevar (env.getD []) pvar)
          | none => env
        if ok then some (OK, some (env.getD [] ++ name ++ equalSign :: c :: value ++ [0]))
        else some (ERROR, env)

/-! ## Finding -/

/-- An environment of the given entries. -/
def envOf (entries : List (List UInt8)) : List UInt8 := entries.flatMap (· ++ [0])

def entryName (e : List UInt8) : List UInt8 := e.takeWhile (· ≠ equalSign)

/-- An entry has no terminator inside, and a sign that ends its name. -/
def EntryOk (e : List UInt8) : Prop := 0 ∉ e ∧ equalSign ∈ e

instance (e : List UInt8) : Decidable (EntryOk e) := inferInstanceAs (Decidable (_ ∧ _))

/-- The comparison of a name with an entry does not go on to the next entry. -/
def Hits (name e : List UInt8) : Prop := e = name ∨ name ++ [equalSign] <+: e

instance (name e : List UInt8) : Decidable (Hits name e) := inferInstanceAs (Decidable (_ ∨ _))

/-- A name differs from an entry at the latest where one of the two ends, unless they are equal. -/
theorem envCmpname_entry (rest : List UInt8) : ∀ name e : List UInt8, 0 ∉ name → 0 ∉ e →
    envCmpname (name ++ [0]) (e ++ 0 :: rest) =
      if e = name then none else some (decide (name ++ [equalSign] <+: e))
  | [], [], _, _ => by simp [envCmpname]
  | [], d :: e, _, he => by
    have hd : 0 ≠ d := fun h => he (h ▸ mem_cons_self)
    simp [envCmpname, hd, eq_comm]
  | c :: name, [], hname, _ => by
    have hc : c ≠ 0 := fun h => hname (h ▸ mem_cons_self)
    simp [envCmpname, hc]
  | c :: name, d :: e, hname, he => by
    have hc : c ≠ 0 := fun h => hname (h ▸ mem_cons_self)
    have ih := envCmpname_entry rest name e (fun h => hname (mem_cons_of_mem c h))
      (fun h => he (mem_cons_of_mem d h))
    by_cases hcd : c = d
    · simpa [envCmpname, hcd, cons_prefix_cons] using ih
    · simp [envCmpname, hcd, hc, cons_prefix_cons, Ne.symm hcd]

theorem findFrom_inside (pname rest : List UInt8) {e : List UInt8} (he : 0 ∉ e) :
    findFrom pname true (e ++ 0 :: rest) = findFrom pname false rest := by
  induction e with
  | nil => rfl
  | cons c e ih =>
    have hc : c ≠ 0 := fun h => he (h ▸ mem_cons_self)
    simpa [findFrom, hc] using ih fun h => he (mem_cons_of_mem c h)

theorem envOf_cons (e : List UInt8) (entries : List (List UInt8)) :
    envOf (e :: entries) = e ++ 0 :: envOf entries := by
  simp [envOf]

/-- The search ends at the first entry that the name hits. -/
theorem findFrom_entries {name : List UInt8} (h0 : 0 ∉ name) {entries : List (List UInt8)}
    (hentries : ∀ e ∈ entries, EntryOk e) :
    findFrom (name ++ [0]) false (envOf entries) =
      match entries.dropWhile (¬ Hits name ·) with
      | [] => some none
      | e :: later => if e = name then none else some (some (envOf (e :: later))) := by
  induction entries with
  | nil => rfl
  | cons e entries ih =>
    obtain ⟨he, hlater⟩ := forall_mem_cons.1 hentries
    have hcmp := envCmpname_entry (envOf entries) name e h0 he.1
    have hskip := findFrom_inside (name ++ [0]) (envOf entries) he.1
    rw [envOf_cons]
    cases e with
    | nil => exact absurd he.2 not_mem_nil
    | cons c e =>
      rw [cons_append] at hcmp hskip ⊢
      rw [findFrom, hcmp]
      -- an entry that is not hit is skipped as a whole
      by_cases heq : c :: e = name
      · simp [heq, Hits]
      · by_cases hpre : name ++ [equalSign] <+: c :: e
        · simp [heq, hpre, Hits, envOf_cons]
        · simpa [heq, hpre, Hits, findFrom] using hskip.trans (ih hlater)

theorem entryName_of_hit {name e : List UInt8} (h : name ++ [equalSign] <+: e) :
    entryName e = entryName name := by
  obtain ⟨value, rfl⟩ := h
  induction name with
  | nil => rfl
  | cons c name ih =>
    rw [entryName, entryName, cons_append, cons_append, takeWhile_cons, takeWhile_cons]
    split
    · exact congrArg _ ih
    · rfl

theorem entryName_append : ∀ e : List UInt8, equalSign ∈ e →
    e = entryName e ++ equalSign :: (e.dropWhile (· ≠ equalSign)).tail
  | c :: e, he => by
    by_cases hc : c = equalSign
    · simp [entryName, hc]
    · have ih := entryName_append e ((mem_cons.1 he).resolve_left (Ne.symm hc))
      simpa [entryName, hc] using ih

/-- A name without `=` hits the entries of this name. -/
theorem hits_iff_entryName {name e : List UInt8} (hname : equalSign ∉ name) (he : equalSign ∈ e) :
    Hits name e ↔ entryName e = name := by
  have hall : entryName name = name :=
    takeWhile_eq_self_iff.2 fun c hc => decide_eq_true fun h => hname (h ▸ hc)
  constructor
  · rintro (rfl | hpre)
    · exact absurd he hname
    · rw [entryName_of_hit hpre, hall]
  · rintro rfl
    refine .inr ⟨(e.dropWhile (· ≠ equalSign)).tail, ?_⟩
    rw [append_assoc, singleton_append, ← entryName_append e he]

/-- For a name without `=` the first hit is the first entry of the name. -/
theorem dropWhile_hits {name : List UInt8} {entries : List (List UInt8)}
    (hname : equalSign ∉ name) (hentries : ∀ e ∈ entries, EntryOk e) :
    entries.dropWhile (¬ Hits name ·) = entries.dropWhile (entryName · ≠ name) := by
  induction entries with
  | nil => rfl
  | cons e entries ih =>
    obtain ⟨he, hlater⟩ := forall_mem_cons.1 hentries
    have hiff : (decide ¬ Hits name e) = decide (entryName e ≠ name) :=
      decide_eq_decide.2 (not_congr (hits_iff_entryName hname he.2))
    rw [dropWhile_cons, dropWhile_cons, hiff, ih hlater]

/-- The search reads the environment only, and finds the first entry of the name, if and only if the
name has no `=` or hits no entry. -/
theorem findvar_stays_inside (name : List UInt8) (h0 : 0 ∉ name)
    (entries : List (List UInt8)) (hentries : ∀ e ∈ entries, EntryOk e) :
    envFindvar (some (envOf entries)) name =
        some (match entries.dropWhile (entryName · ≠ name) with
          | [] => none
          | e :: later => some (envOf (e :: later))) ↔
      (equalSign ∈ name → ∀ e ∈ entries, ¬ (e = name ∨ name ++ [equalSign] <+: e)) := by
  change findFrom (name ++ [0]) false (envOf entries) = _ ↔ (_ → ∀ e ∈ entries, ¬ Hits name e)
  rw [findFrom_entries h0 hentries]
  by_cases hname : equalSign ∈ name
  · -- no entry has such a name, and the search has to miss them all
    have hmiss : entries.dropWhile (entryName · ≠ name) = [] := dropWhile_eq_nil_iff.2 fun e _ =>
      decide_eq_true fun h => by
        have hsign := mem_takeWhile_imp (h ▸ hname : equalSign ∈ entryName e)
        simp at hsign
    rw [hmiss]
    constructor
    · intro h _ e he hhit
      cases hdrop : entries.dropWhile (¬ Hits name ·) with
      | nil => simpa [hhit] using dropWhile_eq_nil_iff.1 hdrop e he
      | cons f later =>
        rw [hdrop] at h
        by_cases hf : f = name <;> simp [hf] at h
    · intro h
      rw [dropWhile_eq_nil_iff.2 fun e he => decide_eq_true (h hname e he)]
  · refine iff_of_true ?_ fun h => absurd h hname
    rw [dropWhile_hits hname hentries]
    cases hdrop : entries.dropWhile (entryName · ≠ name) with
    | nil => rfl
    | cons e later =>
      have he : e ∈ entries := (dropWhile_suffix _).subset (hdrop ▸ mem_cons_self)
      have hne : e ≠ name := fun h => hname (h ▸ (hentries e he).2)
      simp only [if_neg hne]

/-- The second of three variables. -/
theorem findvar_stays_inside_sample :
    envFindvar (some (envOf [[65, 61, 49], [66, 61], [66, 61, 50]])) [66] =
      some (some (envOf [[66, 61], [66, 61, 50]])) :=
  (findvar_stays_inside [66] (by decide) [[65, 61, 49], [66, 61], [66, 61, 50]] (by decide)).2
    (by decide)

/-- With the entry `A=B` as its name the comparison runs on behind both, and the name `A=B` is found
in the entry `A=B=C`, whose name is `A`. -/
theorem findvar_leaves_environment :
    envFindvar (some (envOf [[65, 61, 66]])) [65, 61, 66] = none ∧
      envFindvar (some (envOf [[65, 61, 66, 61, 67]])) [65, 61, 66] =
        some (some (envOf [[65, 61, 66, 61, 67]])) := by
  decide

/-! ## Setting -/

/-- The entries in front of the first one that a name hits. -/
def entriesBefore (name : List UInt8) (entries : List (List UInt8)) : List (List UInt8) :=
  entries.takeWhile (¬ Hits name ·)

/-- Every name by which the entry is found finds an equal one behind it. -/
def Repeated (before : List (List UInt8)) (e : List UInt8) (later : List (List UInt8)) : Prop :=
  ∀ m, Hits m e → (∀ f ∈ before, ¬ Hits m f) → later.find? (Hits m ·) = some e

/-- What `getenv` makes of the entry at which the search ends. -/
def foundValue (m : List UInt8) : Option (List UInt8) → Option (Option (List UInt8))
  | none => some none
  | some e => if e = m then none else some (some (e.dropWhile (· ≠ equalSign)).tail)

/-- The first terminator is that of the first entry. -/
theorem span_envOf_cons {e : List UInt8} (he : 0 ∉ e) (later : List (List UInt8)) :
    (envOf (e :: later)).takeWhile (· ≠ 0) = e ∧
      (envOf (e :: later)).dropWhile (· ≠ 0) = 0 :: envOf later := by
  rw [envOf_cons]
  have hall : ∀ c ∈ e, (decide (c ≠ 0)) = true :=
    fun c hc => decide_eq_true (ne_of_mem_of_not_mem hc he)
  rw [takeWhile_append_of_pos hall, dropWhile_append_of_pos hall]
  simp

section Entries

variable {entries before later : List (List UInt8)} {name e : List UInt8}

theorem find?_hits :
    entries.find? (Hits name ·) = (entries.dropWhile (¬ Hits name ·)).head? := by
  simpa using find?_eq_head?_dropWhile_not (Hits name ·) entries

theorem getenv_entries {env : Environment} (henv : env.getD [] = envOf entries)
    (hentries : ∀ e ∈ entries, EntryOk e) (h0 : 0 ∉ name) :
    getenv env (some name) = foundValue name (entries.find? (Hits name ·)) := by
  rw [getenv, envFindvar, henv, findFrom_entries h0 hentries, find?_hits]
  cases hdrop : entries.dropWhile (¬ Hits name ·) with
  | nil => rfl
  | cons e later =>
    have he := hentries e ((dropWhile_suffix _).subset (hdrop ▸ mem_cons_self))
    by_cases hne : e = name
    · simp [foundValue, hne]
    · simp only [foundValue, head?_cons, if_neg hne, Option.map_some, Option.bind_some,
        (span_envOf_cons he.1 later).1, if_pos he.2]

/-- Of the entries that a name hits, no two have one value. -/
theorem foundValue_eq_iff (hhit : Hits name e) (he : equalSign ∈ e) {found : Option (List UInt8)}
    (hfound : ∀ f ∈ found, Hits name f ∧ equalSign ∈ f) :
    foundValue name found = foundValue name (some e) ↔ found = some e := by
  refine ⟨fun h => ?_, congrArg _⟩
  cases found with
  | none => by_cases hne : e = name <;> simp [foundValue, hne] at h
  | some f =>
    obtain ⟨hf, hsign⟩ := hfound f rfl
    by_cases hfn : f = name <;> by_cases hen : e = name <;> simp only [foundValue, hfn, hen] at h
    · rw [hfn, hen]
    · simp at h
    · simp at h
    · have hvalue : (f.dropWhile (· ≠ equalSign)).tail = (e.dropWhile (· ≠ equalSign)).tail := by
        simpa using h
      rw [entryName_append f hsign, entryName_append e he, hvalue,
        entryName_of_hit (hf.resolve_left hfn), entryName_of_hit (hhit.resolve_left hen)]

/-- The removal of an entry is not seen if and only if the entry is repeated. -/
theorem getenv_removed_iff {env : Environment} (henv : env.getD [] = envOf (before ++ e :: later))
    (hentries : ∀ f ∈ before ++ e :: later, EntryOk f) :
    (∀ m, 0 ∉ m → getenv (some (envOf (before ++ later))) (some m) = getenv env (some m)) ↔
      Repeated before e later := by
  have hrest : ∀ f ∈ before ++ later, EntryOk f := fun f hf =>
    hentries f (((sublist_cons_self e later).append_left before).subset hf)
  have he := hentries e (by simp)
  refine forall_congr' fun m => ?_
  by_cases h0 : 0 ∈ m
  · -- such a name is not in any entry
    have hmiss : ¬ Hits m e := by
      rintro (rfl | hpre)
      · exact he.1 h0
      · exact he.1 (hpre.subset (mem_append_left _ h0))
    exact iff_of_true (fun h => absurd h0 h) fun h => absurd h hmiss
  · have hin : ∀ f ∈ later.find? (Hits m ·), Hits m f ∧ equalSign ∈ f := fun f hf =>
      ⟨by simpa using find?_some hf, (hrest f (mem_append_right _ (mem_of_find?_eq_some hf))).2⟩
    rw [getenv_entries henv hentries h0, getenv_entries rfl hrest h0, find?_append, find?_append]
    cases hbefore : before.find? (Hits m ·) with
    | some f =>
      have hf : f ∈ before ∧ Hits m f :=
        ⟨mem_of_find?_eq_some hbefore, by simpa using find?_some hbefore⟩
      exact iff_of_true (fun _ => rfl) fun _ hnone => absurd hf.2 (hnone f hf.1)
    | none =>
      have hnone : ∀ f ∈ before, ¬ Hits m f := by simpa using hbefore
      by_cases hhit : Hits m e
      · simpa [h0, hhit, forall_prop_of_true hnone] using foundValue_eq_iff hhit he.2 hin
      · simp [hhit]

theorem envRemovevar_found (he : EntryOk e) (before later : List (List UInt8)) :
    envRemovevar (envOf (before ++ e :: later)) (envOf (e :: later)) = envOf (before ++ later) := by
  rw [envRemovevar, (span_envOf_cons he.1 later).2]
  simp [envOf, flatMap_append]

/-- A call for a variable that is there fails if it is to replace it without memory, or to remove
the last one; the variable is gone then. -/
theorem setenv_found_error {env env' : Environment} (henv : env.getD [] = envOf entries)
    (hsplit : entries = before ++ e :: later) (he : EntryOk e)
    (hvar : envFindvar env name = some (some (envOf (e :: later)))) {ok overwrite : Bool}
    {value : Option (List UInt8)} :
    setenv ok env (some name) value overwrite = some (ERROR, env') ↔
      overwrite = true ∧ (ok = false ∨ value.getD [] = [] ∧ before ++ later = []) ∧
        env' = some (envOf (before ++ later)) := by
  have hne : OK ≠ ERROR := by decide
  have hremove := envRemovevar_found he before later
  have hempty : envOf (before ++ later) = [] ↔ before ++ later = [] := by
    cases before ++ later <;> simp [envOf]
  rw [← hsplit, ← henv] at hremove
  cases hv : value.getD [] with
  | nil =>
    -- without a value the call is one of `unsetenv`
    simp only [setenv, hv, unsetenv, hvar, Option.bind_eq_bind, Option.bind_some, hremove,
      length_pos_iff, ne_eq, hempty]
    cases overwrite <;> cases ok <;> by_cases hlast : before ++ later = [] <;>
      simp [hne, hlast, @eq_comm _ env']
  | cons c value =>
    simp only [setenv, hv, hvar, Option.bind_eq_bind, Option.bind_some, hremove]
    cases overwrite <;> cases ok <;> simp [hne, @eq_comm _ env']

end Entries

/-- Without a variable to remove a call that fails leaves the environment. -/
theorem setenv_error_of_not_found {ok overwrite : Bool} {env env' : Environment} {name : List UInt8}
    {value : Option (List UInt8)} (hnot : ∀ pvar, envFindvar env name ≠ some (some pvar))
    (hfail : setenv ok env (some name) value overwrite = some (ERROR, env')) : env' = env := by
  have hne : OK ≠ ERROR := by decide
  rw [setenv] at hfail
  cases hfind : envFindvar env name with
  | none =>
    cases hv : value.getD [] <;> cases overwrite <;> simp [hv, unsetenv, hfind, hne] at hfail
  | some pvar =>
    cases pvar with
    | some pvar => exact absurd hfind (hnot pvar)
    | none =>
      cases hv : value.getD [] <;> cases overwrite <;> cases ok <;>
        simp [hv, unsetenv, hfind, hne] at hfail <;> exact hfail.symm

/-- A call that fails changes nothing if and only if it is not to replace or remove a variable that
is there without the memory, or with no other variable left, or the variable is repeated. -/
theorem failed_setenv_changes_nothing (ok overwrite : Bool) (env : Environment)
    (name value : Option (List UInt8)) (entries : List (List UInt8))
    (henv : env.getD [] = envOf entries) (hentries : ∀ e ∈ entries, EntryOk e)
    (hname : ∀ n ∈ name, 0 ∉ n) :
    (∀ env', setenv ok env name value overwrite = some (ERROR, env') →
        ∀ m, 0 ∉ m → getenv env' (some m) = getenv env (some m)) ↔
      ∀ n ∈ name, ∀ e later, entries.dropWhile (¬ Hits n ·) = e :: later → e ≠ n →
      overwrite = true →
        ok = false ∨ value.getD [] = [] ∧ entriesBefore n entries ++ later = [] →
        Repeated (entriesBefore n entries) e later := by
  cases name with
  | none =>
    refine iff_of_true (fun env' h m _ => ?_) (by simp)
    cases h
    rfl
  | some name =>
    simp only [Option.mem_def, Option.some.injEq, forall_eq']
    have hvar : envFindvar env name = _ :=
      (congrArg _ henv).trans (findFrom_entries (hname name rfl) hentries)
    have hsplit := (takeWhile_append_dropWhile (p := (¬ Hits name ·)) (l := entries)).symm
    have hstay : (∀ pvar, envFindvar env name ≠ some (some pvar)) → ∀ env',
        setenv ok env (some name) value overwrite = some (ERROR, env') →
        ∀ m, 0 ∉ m → getenv env' (some m) = getenv env (some m) := fun hnot env' h m _ => by
      rw [setenv_error_of_not_found hnot h]
    cases hdrop : entries.dropWhile (¬ Hits name ·) with
    | nil =>
      rw [hdrop] at hvar
      exact iff_of_true (hstay (by simp [hvar])) nofun
    | cons e later =>
      rw [hdrop] at hvar hsplit
      by_cases hne : e = name
      · refine iff_of_true (hstay (by simp [hvar, hne])) fun e' later' heq hne' => ?_
        exact absurd ((cons_eq_cons.1 heq).1.symm.trans hne) hne'
      have he := hentries e (hsplit ▸ by simp)
      have hseen := getenv_removed_iff (hsplit ▸ henv) (hsplit ▸ hentries)
      have hfound := hvar.trans (if_neg hne)
      constructor
      · intro h e' later' heq _ hover hfail
        obtain ⟨rfl, rfl⟩ := cons_eq_cons.1 heq
        exact hseen.1 (h _ ((setenv_found_error henv hsplit he hfound).2 ⟨hover, hfail, rfl⟩))
      · intro h env' hset
        obtain ⟨hover, hfail, rfl⟩ := (setenv_found_error henv hsplit he hfound).1 hset
        exact hseen.2 (h e later rfl hne hover hfail)

/-- There is no memory for a second variable, and the first one is still found. -/
theorem failed_setenv_changes_nothing_sample :
    let env : Environment := some (envOf [[65, 61, 49]])
    getenv env (some [65]) = some (some [49]) ∧
      ∃ env', setenv false env (some [66]) (some [50]) true = some (ERROR, env') ∧
        getenv env' (some [65]) = getenv env (some [65]) := by
  intro env
  refine ⟨by decide, env, by decide, (failed_setenv_changes_nothing false true env (some [66])
    (some [50]) [[65, 61, 49]] rfl (by decide) (by decide)).2 ?_ env (by decide) [65] (by decide)⟩
  rintro _ ⟨⟩ e later h
  simp [Hits, dropWhile] at h

/-- There is no memory for the new value, and the old one is gone. -/
theorem failed_setenv_loses_variable :
    let env : Environment := some (envOf [[65, 61, 49]])
    ∃ env', setenv false env (some [65]) (some [50]) true = some (ERROR, env') ∧
      getenv env (some [65]) = some (some [49]) ∧ getenv env' (some [65]) = some none :=
  ⟨some [], by decide⟩

end BaseNx.Environ
