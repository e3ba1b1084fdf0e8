import Mathlib.Data.Option.Basic
import Mathlib.Logic.Function.Basic
import Mathlib.Order.Nat
import TorrentApp.Foundation.Machine

set_option autoImplicit false

/-!
# The cache of the detail pages

A `DetailListCache` is a copy, taken when it is obtained, of the dictionary that
`NSUserDefaults` keeps for a page's url.  A store changes the copy in one critical
section and writes the whole copy back in another.  The dictionary that should
make all callers of one url share one instance is never allocated, so a message
to nil answers every question about it.
-/

namespace TorrentApp.Detail.Cache

open TorrentApp.Foundation

/-! ## Slots -/

/-- What a page's cache holds: its torrent and its images by name. -/
inductive Slot where
  | torrent
  | image (name : String)
  deriving DecidableEq, Repr

/-- The key a slot is stored under. -/
def Slot.key : Slot → String
  | .torrent => "k_torrent"
  | .image name => name

/-- The slot is not an image under the torrent's key. -/
def Slot.Proper (slot : Slot) : Prop := slot ≠ .image "k_torrent"

theorem Slot.key_injective {slot slot' : Slot} (h : slot.Proper) (h' : slot'.Proper)
    (hkey : slot.key = slot'.key) : slot = slot' := by
  cases slot with
  | torrent =>
      cases slot' with
      | torrent => rfl
      | image name => exact absurd (congrArg Slot.image hkey.symm) h'
  | image name =>
      cases slot' with
      | torrent => exact absurd (congrArg Slot.image hkey) h
      | image name' => exact congrArg Slot.image hkey

/-- `-[NSString lastPathComponent]`: what follows the last slash, trailing slashes
apart; of slashes alone one is left. -/
def lastPathComponent (path : String) : String :=
  let trimmed := path.toList.reverse.dropWhile (· == '/')
  if trimmed.isEmpty && !path.isEmpty then "/"
  else String.ofList (trimmed.takeWhile (· != '/')).reverse

/-- What `storeTorrent:` and `storeImage:forName:` put under the key. -/
def Slot.stored : Slot → String → String
  | .torrent, path => lastPathComponent path
  | .image _, path => path

/-! ## The model -/

/-- The properties of a `DetailListCache`. -/
structure DetailListCache where
  url : String
  caches : String → Option String

/-- A call of `storeTorrent:` or `storeImage:forName:` that has set its key. -/
structure Store where
  cache : Nat
  url : String
  slot : Slot
  value : String
  /-- its `synchronize` has returned -/
  finished : Bool

/-- The static dictionary, the persisted one and the instances callers hold. -/
structure State where
  /-- `static NSMutableDictionary *singletons`: nil is `none` -/
  singletons : Option (String → Option Nat)
  /-- `NSUserDefaults` -/
  defaults : String → Option (String → Option String)
  instances : Nat → Option DetailListCache
  nextInstance : Nat
  stores : Nat → Option Store
  nextStore : Nat

def State.init : State where
  singletons := none
  defaults := fun _ => none
  instances := fun _ => none
  nextInstance := 0
  stores := fun _ => none
  nextStore := 0

/-- The critical sections of the cache's methods, each by its caller's data. -/
inductive Label where
  /-- `+cache:`; it returned instance `x` -/
  | cache (url : String) (x : Nat)
  /-- `[self.caches setObject:… forKey:…]` of store `c` -/
  | setObject (c x : Nat) (slot : Slot) (path : String)
  /-- `synchronize` of store `c`, at its end -/
  | synchronize (c : Nat)
  /-- `storedTorrent` or `storedImageForName:`; it returned `result` -/
  | lookup (x : Nat) (slot : Slot) (result : Option String)
  /-- the app is killed and launched again -/
  | relaunch
  deriving DecidableEq, Repr

/-- The persisted entry of a slot. -/
def State.persisted (s : State) (url : String) (slot : Slot) : Option String :=
  (s.defaults url).bind (· slot.key)

/-- `-[DetailListCache initWithUrl:]`. -/
def State.initWithUrl (s : State) (url : String) : DetailListCache where
  url := url
  caches := (s.defaults url).getD fun _ => none

/-- The first branch of `+cache:`: a new instance, entered in `singletons`; adding
to a nil dictionary does nothing. -/
def State.newInstance (s : State) (url : String) : State :=
  { s with
    instances := Function.update s.instances s.nextInstance (some (s.initWithUrl url))
    nextInstance := s.nextInstance + 1
    singletons := s.singletons.map fun dict => Function.update dict url (some s.nextInstance) }

/-- `[self.caches setObject:value forKey:key]`. -/
def DetailListCache.setObject (cache : DetailListCache) (slot : Slot) (value : String) :
    DetailListCache :=
  { cache with caches := Function.update cache.caches slot.key (some value) }

/-- The state after store `s.nextStore` has set its key in instance `x`. -/
def State.setObject (s : State) (x : Nat) (cache : DetailListCache) (slot : Slot) (path : String) :
    State :=
  { s with
    instances := Function.update s.instances x (some (cache.setObject slot (slot.stored path)))
    stores := Function.update s.stores s.nextStore
      (some ⟨x, cache.url, slot, slot.stored path, false⟩)
    nextStore := s.nextStore + 1 }

/-- The state after store `c` has written its instance's dictionary back. -/
def State.synchronize (s : State) (c : Nat) (store : Store) (cache : DetailListCache) : State :=
  { s with
    defaults := Function.update s.defaults cache.url (some cache.caches)
    stores := Function.update s.stores c (some { store with finished := true }) }

section

variable (temporaryDirectory : String) (fileExists : String → Bool)

/-- What a lookup returns for the entry it read; `fileExistsAtPath:nil` is NO. -/
def lookedUp : Slot → Option String → Option String
  | .torrent, filename =>
      (filename.map (temporaryDirectory ++ ·)).filter fun path => fileExists path
  | .image _, path => path.filter fun path => fileExists path

/-- One critical section. -/
def step (s : State) : Label → Option State
  | .cache url x =>
      match s.singletons.bind (· url) with
      | some y => if x = y then some s else none
      | none => if x = s.nextInstance then some (s.newInstance url) else none
  | .setObject c x slot path =>
      match s.instances x with
      | some cache => if c = s.nextStore then some (s.setObject x cache slot path) else none
      | none => none
  | .synchronize c =>
      match s.stores c with
      | some store =>
          match s.instances store.cache with
          | some cache => if store.finished then none else some (s.synchronize c store cache)
          | none => none
      | none => none
  | .lookup x slot result =>
      match s.instances x with
      | some cache =>
          if result = lookedUp temporaryDirectory fileExists slot (cache.caches slot.key) then
            some s
          else none
      | none => none
  | .relaunch => some { s with singletons := none, instances := fun _ => none }

end

/-! ## What a step can do -/

variable {tmp : String} {fileExists : String → Bool}

theorem cache_cases {s s' : State} {url : String} {x : Nat} (hnil : s.singletons = none)
    (h : step tmp fileExists s (.cache url x) = some s') :
    x = s.nextInstance ∧ s' = s.newInstance url := by
  simp only [step, hnil, Option.bind_none, Option.ite_none_right_eq_some, Option.some.injEq] at h
  exact ⟨h.1, h.2.symm⟩

theorem setObject_cases {s s' : State} {c x : Nat} {slot : Slot} {path : String}
    (h : step tmp fileExists s (.setObject c x slot path) = some s') :
    ∃ cache, s.instances x = some cache ∧ c = s.nextStore ∧ s' = s.setObject x cache slot path := by
  simp only [step] at h
  split at h
  · next cache hx =>
      simp only [Option.ite_none_right_eq_some, Option.some.injEq] at h
      exact ⟨cache, hx, h.1, h.2.symm⟩
  · cases h

theorem synchronize_cases {s s' : State} {c : Nat}
    (h : step tmp fileExists s (.synchronize c) = some s') :
    ∃ store cache, s.stores c = some store ∧ s.instances store.cache = some cache ∧
      store.finished = false ∧ s' = s.synchronize c store cache := by
  simp only [step] at h
  split at h
  · next store hc =>
      split at h
      · next cache hx =>
          simp only [Option.ite_none_left_eq_some, Option.some.injEq, Bool.not_eq_true] at h
          exact ⟨store, cache, hc, hx, h.1, h.2.symm⟩
      · cases h
  · cases h

theorem lookup_cases {s s' : State} {x : Nat} {slot : Slot} {result : Option String}
    (h : step tmp fileExists s (.lookup x slot result) = some s') :
    ∃ cache, s.instances x = some cache ∧
      result = lookedUp tmp fileExists slot (cache.caches slot.key) ∧ s' = s := by
  simp only [step] at h
  split at h
  · next cache hx =>
      simp only [Option.ite_none_right_eq_some, Option.some.injEq] at h
      exact ⟨cache, hx, h.1, h.2.symm⟩
  · cases h

/-- What holds of every reachable state: the static dictionary is nil, numbers
are given out in order, and a store remembers the url of its instance. -/
structure State.WellFormed (s : State) : Prop where
  singletons : s.singletons = none
  instances : ∀ x, s.nextInstance ≤ x → s.instances x = none
  stores : ∀ c, s.nextStore ≤ c → s.stores c = none
  url : ∀ c store cache, s.stores c = some store → s.instances store.cache = some cache →
    cache.url = store.url
  cacheLt : ∀ c store, s.stores c = some store → store.cache < s.nextInstance

theorem wellFormed_init : State.init.WellFormed where
  singletons := rfl
  instances := fun _ _ => rfl
  stores := fun _ _ => rfl
  url := fun _ _ _ h => by cases h
  cacheLt := fun _ _ h => by cases h

theorem State.WellFormed.newInstance {s : State} (h : s.WellFormed) (url : String) :
    (s.newInstance url).WellFormed where
  singletons := by simp [State.newInstance, h.singletons]
  instances := by
    intro x hx
    have hlt : s.nextInstance < x := hx
    simpa [State.newInstance, hlt.ne'] using h.instances x hlt.le
  stores := h.stores
  url := by
    intro c store cache hc hx
    have hne : store.cache ≠ s.nextInstance := (h.cacheLt c store hc).ne
    exact h.url c store cache hc (by simpa [State.newInstance, hne] using hx)
  cacheLt := fun c store hc => (h.cacheLt c store hc).trans (Nat.lt_succ_self _)

theorem State.WellFormed.setObject {s : State} (h : s.WellFormed) {x : Nat}
    {cache : DetailListCache} (hx : s.instances x = some cache) (slot : Slot) (path : String) :
    (s.setObject x cache slot path).WellFormed where
  singletons := h.singletons
  instances := by
    intro y hy
    have hne : y ≠ x := by
      rintro rfl
      rw [h.instances y hy] at hx
      cases hx
    simpa [State.setObject, hne] using h.instances y hy
  stores := by
    intro c hc
    have hlt : s.nextStore < c := hc
    simpa [State.setObject, hlt.ne'] using h.stores c hlt.le
  url := by
    intro c store cache' hc hx'
    have hurl : ∀ y cache'', (s.setObject x cache slot path).instances y = some cache'' →
        ∃ old, s.instances y = some old ∧ old.url = cache''.url := by
      intro y cache'' hy
      by_cases hyx : y = x
      · subst hyx
        have heq : cache.setObject slot (slot.stored path) = cache'' := by
          simpa [State.setObject] using hy
        exact ⟨cache, hx, heq ▸ rfl⟩
      · exact ⟨cache'', by simpa [State.setObject, hyx] using hy, rfl⟩
    obtain ⟨old, hold, holdurl⟩ := hurl _ _ hx'
    by_cases hcn : c = s.nextStore
    · subst hcn
      have heq : Store.mk x cache.url slot (slot.stored path) false = store := by
        simpa [State.setObject] using hc
      subst heq
      rw [← holdurl]
      exact congrArg DetailListCache.url (Option.some.inj (hold.symm.trans hx))
    · rw [← holdurl]
      exact h.url c store old (by simpa [State.setObject, hcn] using hc) hold
  cacheLt := by
    intro c store hc
    by_cases hcn : c = s.nextStore
    · subst hcn
      have heq : Store.mk x cache.url slot (slot.stored path) false = store := by
        simpa [State.setObject] using hc
      subst heq
      by_contra hge
      rw [h.instances x (Nat.le_of_not_lt hge)] at hx
      cases hx
    · exact h.cacheLt c store (by simpa [State.setObject, hcn] using hc)

theorem State.WellFormed.synchronize {s : State} (h : s.WellFormed) {c : Nat} {store : Store}
    (hc : s.stores c = some store) (cache : DetailListCache) :
    (s.synchronize c store cache).WellFormed := by
  have hold : ∀ c' store', (s.synchronize c store cache).stores c' = some store' →
      ∃ old, s.stores c' = some old ∧ old.cache = store'.cache ∧ old.url = store'.url := by
    intro c' store' hc'
    by_cases hcc : c' = c
    · subst hcc
      have heq : { store with finished := true } = store' := by
        simpa [State.synchronize] using hc'
      exact ⟨store, hc, heq ▸ ⟨rfl, rfl⟩⟩
    · exact ⟨store', by simpa [State.synchronize, hcc] using hc', rfl, rfl⟩
  refine ⟨h.singletons, h.instances, ?_, ?_, ?_⟩
  · intro c' hc'
    by_contra hne
    obtain ⟨store', hsome⟩ := Option.ne_none_iff_exists'.mp hne
    obtain ⟨old, holdc, -⟩ := hold c' store' hsome
    rw [h.stores c' hc'] at holdc
    cases holdc
  · intro c' store' cache' hc' hx'
    obtain ⟨old, holdc, hcache, hurl⟩ := hold c' store' hc'
    rw [← hurl]
    exact h.url c' old cache' holdc (hcache ▸ hx')
  · intro c' store' hc'
    obtain ⟨old, holdc, hcache, -⟩ := hold c' store' hc'
    exact hcache ▸ h.cacheLt c' old holdc

theorem State.WellFormed.relaunch {s : State} (h : s.WellFormed) :
    State.WellFormed { s with singletons := none, instances := fun _ => none } where
  singletons := rfl
  instances := fun _ _ => rfl
  stores := h.stores
  url := fun _ _ _ _ hx => by cases hx
  cacheLt := h.cacheLt

theorem State.WellFormed.step {s s' : State} {l : Label} (h : s.WellFormed)
    (hstep : step tmp fileExists s l = some s') : s'.WellFormed := by
  cases l with
  | cache url x => obtain ⟨-, rfl⟩ := cache_cases h.singletons hstep; exact h.newInstance url
  | setObject c x slot path =>
      obtain ⟨cache, hx, -, rfl⟩ := setObject_cases hstep
      exact h.setObject hx slot path
  | synchronize c =>
      obtain ⟨store, cache, hc, -, -, rfl⟩ := synchronize_cases hstep
      exact h.synchronize hc cache
  | lookup x slot result => obtain ⟨-, -, -, rfl⟩ := lookup_cases hstep; exact h
  | relaunch => cases hstep; exact h.relaunch

theorem wellFormed_of_run {tr : List Label} {s : State}
    (hrun : run (step tmp fileExists) State.init tr = some s) : s.WellFormed :=
  run_induction (motive := fun _ s => s.WellFormed) wellFormed_init
    (fun _ _ _ _ _ ih hstep => ih.step hstep) hrun

end TorrentApp.Detail.Cache
