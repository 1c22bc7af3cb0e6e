import BackupManager.Client.ChangingFolder
import BackupManager.Digest.Streaming

/-! Which runs of the watcher an exception ends, while others change the folder. -/
namespace BackupManager.Client.ChangingFolder
open ByteStream FileTree Transition

/-- The changes from outside. -/
def Event.IsOutside : Event → Prop
  | .create _ _ | .delete _ | .rename _ _ | .write _ _ | .touch _ _ => True
  | _ => False

section Steps

variable {m : Machine} {s s' : State}

/-- A change of the tree that leaves `path_to_watch` in place. -/
def Leaves (m : Machine) (t t' : Files) : Prop :=
  ∀ y data, y <+: m.watch → t y = some (.directory data) → m.Admits y data →
    ∃ data', t' y = some (.directory data') ∧ m.Admits y data'

/-- Writing an entry leaves the folder in place, unless it is an entry on its way. -/
theorem leaves_update {t : Files} {x : Location}
    {node : FileTree.Node (Linked Bytes RegularFile) Directory}
    (hnode : x <+: m.watch → IsDirectory t x → ∃ data, node = .directory data ∧ m.Admits x data) :
    Leaves m t (Function.update t x (some node)) := by
  intro y data hy hdata hadmits
  by_cases hyx : y = x
  · rw [hyx] at hy hdata
    obtain ⟨data', rfl, hadmits'⟩ := hnode hy ⟨_, hdata, trivial⟩
    rw [hyx]
    exact ⟨data', Function.update_self _ _ _, hadmits'⟩
  · exact ⟨data, (Function.update_of_ne hyx _ _).trans hdata, hadmits⟩

/-- A change from outside changes the tree and the places of what is open, and leaves the folder. -/
theorem outside_cases {e : Event} (he : e.IsOutside) (hstep : step m s e = some s') :
    ∃ tree stack, s' = { s with tree := tree, stack := stack } ∧ Leaves m s.tree tree := by
  unfold step at hstep
  cases e with
  | create x node =>
    dsimp only at hstep
    split at hstep
    · next hcreate =>
      refine ⟨_, _, (Option.some.inj hstep).symm, leaves_update fun _ hdir => ?_⟩
      exact absurd hcreate.1 hdir.ne_none
    · exact absurd hstep (by simp)
  | delete x =>
    dsimp only at hstep
    split at hstep
    · next hdelete =>
      refine ⟨_, _, (Option.some.inj hstep).symm, fun y data hy hdata hadmits => ?_⟩
      have hkept : prune s.tree x y = s.tree y := prune_outside fun hx => hdelete.2 (hx.trans hy)
      exact ⟨data, hkept.trans hdata, hadmits⟩
    · exact absurd hstep (by simp)
  | rename source target =>
    dsimp only at hstep
    split at hstep
    · next hrename =>
      obtain ⟨-, -, -, -, hsource, htarget⟩ := hrename
      refine ⟨_, _, (Option.some.inj hstep).symm, fun y data hy hdata hadmits => ?_⟩
      have hkept : move s.tree source target y = s.tree y := by
        unfold move
        rw [if_neg fun hp => htarget (hp.trans hy), if_neg fun hp => hsource (hp.trans hy)]
      exact ⟨data, hkept.trans hdata, hadmits⟩
    · exact absurd hstep (by simp)
  | write x data =>
    dsimp only at hstep
    split at hstep
    · next old hfile =>
      refine ⟨_, _, (Option.some.inj hstep).symm, leaves_update fun _ hdir => ?_⟩
      obtain ⟨node, hnode, hnodeDir⟩ := hdir
      rw [hfile, Option.mem_some_iff] at hnode
      rw [← hnode] at hnodeDir
      exact hnodeDir.elim
    · exact absurd hstep (by simp)
  | touch x data =>
    dsimp only at hstep
    split at hstep
    · split at hstep
      · next hadmits =>
        exact ⟨_, _, (Option.some.inj hstep).symm, leaves_update fun _ _ => ⟨data, rfl, hadmits⟩⟩
      · exact absurd hstep (by simp)
    · exact absurd hstep (by simp)
  | _ => exact he.elim

/-- The watcher stays where it is while others change the folder. -/
theorem outside_watcher {e : Event} (he : e.IsOutside) (hstep : step m s e = some s') :
    s'.watcher = s.watcher := by
  obtain ⟨tree, stack, rfl, -⟩ := outside_cases he hstep
  rfl

/-- No change from outside moves `path_to_watch`. -/
theorem step_outside {e : Event} (h : InPlace m s) (he : e.IsOutside)
    (hstep : step m s e = some s') : InPlace m s' := by
  obtain ⟨tree, stack, rfl, hleaves⟩ := outside_cases he hstep
  intro y hy
  obtain ⟨data, hdata, hadmits⟩ := h y hy
  exact hleaves y data hy hdata hadmits

/-- A step of the iterator. -/
theorem step_iterator {e : Event} (h : InPlace m s) {scan : Bool}
    (hiterates : s.watcher.iterates = some scan)
    (he : (∃ popped name kind, e = .deliver popped name kind) ∨ ∃ order, e = .endOfDirectory order)
    (hstep : step m s e = some s') :
    s'.tree = s.tree ∧ (s'.watcher = .threw ↔ ¬Finds m s e) := by
  have hfinds : ¬Finds m s e ↔ s.opened m = none := by
    rw [opened_eq_none h]
    rcases he with ⟨popped, name, kind, rfl⟩ | ⟨order, rfl⟩
    · rfl
    · rfl
  rw [hfinds]
  rcases he with ⟨popped, name, kind, rfl⟩ | ⟨order, rfl⟩
  · unfold step at hstep
    dsimp only at hstep
    rw [hiterates] at hstep
    cases hopened : s.opened m with
    | none =>
      rw [hopened] at hstep
      rw [← Option.some.inj hstep]
      exact ⟨rfl, by simp [State.goesOn]⟩
    | some stack =>
      rw [hopened] at hstep
      dsimp only at hstep
      split at hstep
      · exact absurd hstep (by simp)
      · next d rest hdrop =>
        rw [← Option.some.inj hstep]
        refine ⟨rfl, ?_⟩
        cases scan <;> simp [WatcherAt.entry]
  · unfold step at hstep
    dsimp only at hstep
    rw [hiterates] at hstep
    cases hopened : s.opened m with
    | none =>
      rw [hopened] at hstep
      rw [← Option.some.inj hstep]
      exact ⟨rfl, by simp [State.goesOn]⟩
    | some stack =>
      rw [hopened] at hstep
      cases scan with
      | true =>
        rw [← Option.some.inj hstep]
        exact ⟨rfl, by simp⟩
      | false =>
        rw [← Option.some.inj hstep]
        exact ⟨rfl, by simp⟩

theorem inPlace_of_tree (h : InPlace m s) (htree : s'.tree = s.tree) : InPlace m s' := by
  intro y hy
  rw [htree]
  exact h y hy

/-- A step throws exactly where it does not find what it needs. -/
theorem step_spec {e : Event} (h : InPlace m s) (hwatcher : s.watcher ≠ .threw)
    (hstep : step m s e = some s') : InPlace m s' ∧ (s'.watcher = .threw ↔ ¬Finds m s e) := by
  have houtside : e.IsOutside → Finds m s e → InPlace m s' ∧ (s'.watcher = .threw ↔ ¬Finds m s e) := by
    intro he hfinds
    rw [outside_watcher he hstep]
    exact ⟨step_outside h he hstep, ⟨fun hthrew => absurd hthrew hwatcher, fun hno => absurd hfinds hno⟩⟩
  have hiterator : (∃ popped name kind, e = .deliver popped name kind) ∨
      (∃ order, e = .endOfDirectory order) →
      InPlace m s' ∧ (s'.watcher = .threw ↔ ¬Finds m s e) := by
    intro he
    cases hiterates : s.watcher.iterates with
    | none =>
      rcases he with ⟨popped, name, kind, rfl⟩ | ⟨order, rfl⟩
      · simp [step, hiterates] at hstep
      · simp [step, hiterates] at hstep
    | some scan =>
      obtain ⟨htree, hiff⟩ := step_iterator h hiterates he hstep
      exact ⟨inPlace_of_tree h htree, hiff⟩
  cases e with
  | call =>
    unfold step at hstep
    dsimp only at hstep
    split at hstep
    · next hcalls =>
      have hstep := Option.some.inj hstep
      cases hcalled : s.called m with
      | none =>
        rw [hcalled] at hstep
        rw [← hstep]
        exact ⟨inPlace_of_tree h rfl, ⟨fun _ => (called_eq_none hcalls).mp hcalled, fun _ => rfl⟩⟩
      | some s₁ =>
        rw [hcalled] at hstep
        have hsame : s₁ = s' := hstep
        obtain ⟨htree, hgoesOn⟩ := called_result hcalls hcalled
        rw [← hsame]
        refine ⟨inPlace_of_tree h htree, ⟨fun hthrew => absurd hthrew hgoesOn, fun hno => ?_⟩⟩
        rw [← called_eq_none hcalls, hcalled] at hno
        exact absurd hno (by simp)
    · exact absurd hstep (by simp)
  | refused =>
    unfold step at hstep
    dsimp only at hstep
    split at hstep
    · rw [← Option.some.inj hstep]
      exact ⟨inPlace_of_tree h rfl, iff_of_true rfl id⟩
    · exact absurd hstep (by simp)
  | deliver popped name kind => exact hiterator (Or.inl ⟨popped, name, kind, rfl⟩)
  | endOfDirectory order => exact hiterator (Or.inr ⟨order, rfl⟩)
  | awake order =>
    unfold step at hstep
    dsimp only at hstep
    split at hstep
    · rw [← Option.some.inj hstep]
      refine ⟨inPlace_of_tree h rfl, ?_⟩
      unfold State.goesOn Finds
      dsimp only
      split <;> simp
    · exact absurd hstep (by simp)
  | stop =>
    rw [← Option.some.inj hstep]
    exact ⟨inPlace_of_tree h rfl,
      ⟨fun hthrew => absurd hthrew hwatcher, fun hno => absurd trivial hno⟩⟩
  | _ => exact houtside trivial trivial

/-- Once an exception has left `start` the watcher makes no step. -/
theorem step_threw {e : Event} (hwatcher : s.watcher = .threw) (hstep : step m s e = some s') :
    s'.watcher = .threw := by
  have houtside : e.IsOutside → s'.watcher = .threw := by
    intro he
    rw [outside_watcher he hstep]
    exact hwatcher
  cases e with
  | call => simp [step, hwatcher, WatcherAt.calls] at hstep
  | refused => simp [step, State.asks, hwatcher] at hstep
  | deliver popped name kind => simp [step, hwatcher, WatcherAt.iterates] at hstep
  | endOfDirectory order => simp [step, hwatcher, WatcherAt.iterates] at hstep
  | awake order => simp [step, hwatcher] at hstep
  | stop =>
    rw [← Option.some.inj hstep]
    exact hwatcher
  | _ => exact houtside trivial

theorem run_threw {events : List Event} (hwatcher : s.watcher = .threw)
    (hrun : run (step m) s events = some s') : s'.watcher = .threw :=
  run_keeps (fun _ _ _ h hstep => step_threw h hstep) hwatcher hrun

end Steps

section Calm

/-- The entry that the watcher examines, and what it takes it for. -/
def WatcherAt.examines : WatcherAt → Option (Location × Kind)
  | .hashing x _ => some (x, .file)
  | .body x kind | .knownTime x kind _ | .knownModified x kind | .lastTime x kind
  | .scanTime x kind | .scanAction x kind _ | .advancing _ x kind => some (x, kind)
  | _ => none

/-- The entry stands as the iterator has delivered it, and may be read. -/
structure StandsAs (t : Files) (x : Location) (kind : Kind) : Prop where
  reachable : Reachable Directory.searchable t x
  node : kind = .file ∧ (∃ data, t x = some (.file (.data data)) ∧ data.readable = true) ∨
    kind = .directory ∧ Searches Directory.readable t x

/-- What is examined stands, the open directory is where it was listed, and no path ends in an
error. -/
structure Calm (m : Machine) (s : State) : Prop where
  stands : ∀ x kind, s.watcher.examines = some (x, kind) → StandsAs s.tree x kind
  listed : ∀ scan x, s.watcher = .advancing scan x .directory → s.placeOf x = some x
  answered : ∀ x, s.status m x ≠ .error

variable {m : Machine} {s s' : State}

theorem StandsAs.status {x : Location} {kind : Kind} (h : StandsAs s.tree x kind) :
    kind = .file ∧ (∃ data, s.status m x = .file data ∧ data.readable = true) ∨
      kind = .directory ∧ ∃ data, s.status m x = .directory data := by
  unfold State.status
  rcases h.node with ⟨hkind, data, hdata, hreadable⟩ | ⟨hkind, data, hdata, -⟩
  · refine Or.inl ⟨hkind, data, ?_, hreadable⟩
    rw [stat_reachable m.maxLinks h.reachable (by simp [hdata]) (by simp [hdata]), hdata]
    rfl
  · refine Or.inr ⟨hkind, data, ?_⟩
    rw [stat_reachable m.maxLinks h.reachable (by simp [hdata]) (by simp [hdata]), hdata]
    rfl

theorem Calm.enters (h : Calm m s) : Enters s := by
  unfold Enters
  split
  · next scan x hw =>
    have hplace := h.listed scan x hw
    have hstands := h.stands x .directory (by rw [hw, WatcherAt.examines])
    have hne : x.dropLast ≠ x := by
      obtain ⟨d, -, hd⟩ := Option.bind_eq_some_iff.mp hplace
      obtain ⟨y, -, hy⟩ := Option.map_eq_some_iff.mp hd
      rw [← hy, List.dropLast_concat]
      simp
    refine ⟨x, hplace, hstands.reachable _ (List.dropLast_prefix x) hne, ?_⟩
    rcases hstands.node with ⟨hkind, -⟩ | ⟨-, hreadable⟩
    · exact absurd hkind (by simp)
    · exact hreadable
  · trivial

theorem Calm.finds (h : Calm m s) {e : Event} (he : e ≠ .refused) : Finds m s e := by
  have htimed : ∀ x kind, s.watcher.examines = some (x, kind) →
      s.status m x ≠ .missing ∧ s.status m x ≠ .error := by
    intro x kind hx
    refine ⟨?_, h.answered x⟩
    rcases (h.stands x kind hx).status (m := m) with ⟨-, data, hdata, -⟩ | ⟨-, data, hdata⟩
    · simp [hdata]
    · simp [hdata]
  cases e with
  | call =>
    unfold Finds
    dsimp only
    cases hw : s.watcher with
    | body x kind => exact fun _ => h.answered x
    | hashing x kind =>
      rcases (h.stands x .file (by rw [hw, WatcherAt.examines])).status (m := m) with
        ⟨-, hdata⟩ | ⟨hkind, -⟩
      · exact hdata
      · exact absurd hkind (by simp)
    | knownTime x kind hashStr => exact htimed x kind (by rw [hw, WatcherAt.examines])
    | lastTime x kind => exact htimed x kind (by rw [hw, WatcherAt.examines])
    | scanTime x kind => exact htimed x kind (by rw [hw, WatcherAt.examines])
    | knownModified x kind => exact h.answered x
    | scanAction x kind fileStatus => exact h.answered x
    | goneErased x paths => exact h.answered x
    | leftover paths =>
      cases paths with
      | nil => trivial
      | cons x paths => exact h.answered x
    | gone paths =>
      cases paths with
      | nil => trivial
      | cons x paths => exact h.answered x
    | _ => trivial
  | refused => exact he rfl
  | deliver popped name kind => exact h.enters
  | endOfDirectory order => exact h.enters
  | _ => trivial

/-- A run survives if whatever is examined in it stands as it has been listed, and no call is
refused. -/
theorem survives_calm {events : List Event} (h : Starts m s)
    (hcalm : Meets (step m) (fun s e => Calm m s ∧ e ≠ .refused) s events)
    (hrun : run (step m) s events = some s') : s'.watcher ≠ .threw := by
  have hstart : InPlace m s ∧ s.watcher ≠ .threw := ⟨h.inPlace, by simp [h.watcher]⟩
  refine (run_invariant (I := fun s => InPlace m s ∧ s.watcher ≠ .threw) ?_ hstart hcalm hrun).2
  intro s e s' hs hs' hstep
  obtain ⟨hplace, hiff⟩ := step_spec hs.1 hs.2 hstep
  exact ⟨hplace, fun hthrew => hiff.mp hthrew (hs'.1.finds hs'.2)⟩

end Calm

/-- The watcher survives a run exactly if every call of the run finds what it needs. -/
theorem watcher_survives (m : Machine) (s s' : State) (h : Starts m s) (events : List Event)
    (hrun : run (step m) s events = some s') :
    s'.watcher ≠ .threw ↔ Meets (step m) (Finds m) s events := by
  have hstarts : InPlace m s ∧ s.watcher ≠ .threw := ⟨h.inPlace, by simp [h.watcher]⟩
  clear h
  induction events generalizing s with
  | nil =>
    rw [← Option.some.inj hrun]
    exact ⟨fun _ => trivial, fun _ => hstarts.2⟩
  | cons e events ih =>
    obtain ⟨s₁, hs₁, hrest⟩ := run_cons_eq_some.mp hrun
    obtain ⟨hplace, hiff⟩ := step_spec hstarts.1 hstarts.2 hs₁
    by_cases hthrew : s₁.watcher = .threw
    · rw [run_threw hthrew hrest]
      exact ⟨fun hno => absurd rfl hno, fun hmeets => absurd hmeets.1 (hiff.mp hthrew)⟩
    · have hfinds : Finds m s e := by
        by_contra hno
        exact hthrew (hiff.mpr hno)
      have hlater := ih s₁ hrest ⟨hplace, hthrew⟩
      exact ⟨fun hsurvives => .cons hfinds hs₁ (hlater.mp hsurvives),
        fun hmeets => hlater.mpr (hmeets.2 s₁ hs₁)⟩

/-- The folder `/w`. -/
def folder : Machine := ⟨[[119]], 40, Digest.shortDigest⟩

/-- The folder `/w` with one entry `/w/a`; the server knows nothing of it. -/
def withEntry (node : FileTree.Node (Linked Bytes RegularFile) Directory) : State where
  tree := Function.update (Function.update (Function.update (fun _ => none)
    [] (some (.directory ⟨0, true, true⟩))) [[119]] (some (.directory ⟨0, true, true⟩)))
    [[119], [97]] (some node)
  watcher := .opening false
  stack := []
  paths := fun _ => none
  initialStatus := fun _ => none
  pushed := []
  running := true

theorem starts_withEntry (node : FileTree.Node (Linked Bytes RegularFile) Directory) :
    Starts folder (withEntry node) := by
  refine ⟨fun y hy => ?_, rfl⟩
  rcases List.prefix_cons_iff.mp hy with rfl | ⟨z, rfl, hz⟩
  · exact ⟨⟨0, true, true⟩, rfl, by decide⟩
  · rw [List.prefix_nil.mp hz]
    exact ⟨⟨0, true, true⟩, rfl, by decide⟩

/-- A file that is deleted between two passes costs an event. -/
theorem watcher_survives_deleted :
    ∃ s', run (step folder) (withEntry (.file (.data ⟨5, [104, 105], true⟩)))
      [.deliver 0 [97] .file, .call, .call, .endOfDirectory [], .call, .delete [[119], [97]],
        .awake [[[119], [97]]], .call, .call, .call, .endOfDirectory []] = some s' ∧
      Meets (step folder) (Finds folder) (withEntry (.file (.data ⟨5, [104, 105], true⟩)))
        [.deliver 0 [97] .file, .call, .call, .endOfDirectory [], .call, .delete [[119], [97]],
          .awake [[[119], [97]]], .call, .call, .call, .endOfDirectory []] := by
  refine ⟨_, rfl, ?_⟩
  refine (watcher_survives folder _ _ (starts_withEntry _) _ rfl).mp ?_
  decide

/-- A file that is deleted after it has been listed ends the session, and so does a dangling link that
nobody touches. -/
theorem watcher_vanished :
    (Starts folder (withEntry (.file (.data ⟨5, [104, 105], true⟩))) ∧
      ∃ s', run (step folder) (withEntry (.file (.data ⟨5, [104, 105], true⟩)))
        [.deliver 0 [97] .file, .delete [[119], [97]], .call, .call] = some s' ∧
        s'.watcher = .threw) ∧
    Starts folder (withEntry (.file (.link false [.name [98]]))) ∧
      ∃ s', run (step folder) (withEntry (.file (.link false [.name [98]])))
        [.deliver 0 [97] .link, .call, .call] = some s' ∧ s'.watcher = .threw :=
  ⟨⟨starts_withEntry _, _, rfl, by decide⟩, starts_withEntry _, _, rfl, by decide⟩

end BackupManager.Client.ChangingFolder
