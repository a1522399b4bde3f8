/-
# Blank settings

An optional setting that is present but blank, as environment templates leave it, in place
of one that is absent.

* `OptionalSetting` are the five optional settings, and `put` gives one a value.
* `validate_proxies`: validation comes to the proxies last.
* `blank_is_unset_iff`: when a blank setting means the same as an absent one.
-/
import Serica.StartUp

namespace StartUp

inductive OptionalSetting
  | redisUrl
  | corsOrigin
  | apiKey
  | searchUrl
  | extractUrl
deriving DecidableEq

/-- The configuration with a value of a setting. -/
def OptionalSetting.put (setting : OptionalSetting) (value : Option String) (config : Config) :
    Config :=
  match setting with
  | redisUrl => { config with cache := { config.cache with redisUrl := value } }
  | corsOrigin => { config with cors := ⟨value⟩ }
  | apiKey => { config with server := { config.server with apiKey := value } }
  | searchUrl => { config with proxy := { config.proxy with searchUrl := value } }
  | extractUrl => { config with proxy := { config.proxy with extractUrl := value } }

/-- A blank setting means the same as an absent one: to validation, to every start-up, and
to the key that a request is asked for. -/
def BlankIsUnset (platform : Platform) (setting : OptionalSetting) (config : Config) : Prop :=
  (setting.put (some "") config).validate platform = (setting.put none config).validate platform
    ∧ (∀ build command, startUp build platform command (setting.put (some "") config)
      = startUp build platform command (setting.put none config))
    ∧ ∀ provided, checkApiKey (setting.put (some "") config).server.apiKey provided
      = checkApiKey (setting.put none config).server.apiKey provided

def OptionalSetting.isProxy (setting : OptionalSetting) : Bool :=
  setting == searchUrl || setting == extractUrl

/-- The configuration with these proxies. -/
def withProxies (config : Config) (searchUrl extractUrl : Option String) : Config :=
  { config with proxy := ⟨searchUrl, extractUrl⟩ }

/-- What is left of the configuration to the checks before that of a proxy. -/
def OptionalSetting.checkedBefore (setting : OptionalSetting) (config : Config) : Config :=
  match setting with
  | searchUrl => withProxies config none none
  | _ => withProxies config config.proxy.searchUrl none

/-! ## Validation -/

/-- Validation comes to the proxies last. -/
theorem validate_proxies (platform : Platform) (config : Config)
    (searchUrl extractUrl : Option String) :
    (withProxies config searchUrl extractUrl).validate platform = (do
      (withProxies config none none).validate platform
      Config.checkProxyUrl platform searchUrl "proxy.search_url"
        "SERICA_PROXY__SEARCH_URL or [proxy].search_url"
      Config.checkProxyUrl platform extractUrl "proxy.extract_url"
        "SERICA_PROXY__EXTRACT_URL or [proxy].extract_url") := by
  simp only [Config.validate, bind_assoc]
  rfl

/-- The parser of URLs takes no blank text. -/
def RejectsBlank (platform : Platform) : Prop := ∃ e, platform.parseUrl "" = .error e

theorem checkProxyUrl_blank {platform : Platform} (hblank : RejectsBlank platform)
    (name hint : String) :
    ∃ e, Config.checkProxyUrl platform (some "") name hint
      = .error (name ++ " is not a valid URL (" ++ e ++ "); set " ++ hint) := by
  obtain ⟨e, he⟩ := hblank
  exact ⟨e, by simp only [Config.checkProxyUrl, he]⟩

/-- The two proxies have each its own error. -/
theorem search_ne_extract (a b : String) :
    "proxy.search_url" ++ a ≠ "proxy.extract_url" ++ b := by
  intro h
  have hlist := congrArg (fun s => s.toList[6]?) h
  simp at hlist

/-- A blank search proxy is an error of its own, whatever the other proxy. -/
theorem blank_search_ne {platform : Platform} (hblank : RejectsBlank platform)
    (extractUrl : Option String) :
    (do Config.checkProxyUrl platform (some "") "proxy.search_url"
          "SERICA_PROXY__SEARCH_URL or [proxy].search_url"
        Config.checkProxyUrl platform extractUrl "proxy.extract_url"
          "SERICA_PROXY__EXTRACT_URL or [proxy].extract_url")
      ≠ Config.checkProxyUrl platform extractUrl "proxy.extract_url"
          "SERICA_PROXY__EXTRACT_URL or [proxy].extract_url" := by
  obtain ⟨e, he⟩ := checkProxyUrl_blank hblank "proxy.search_url"
    "SERICA_PROXY__SEARCH_URL or [proxy].search_url"
  rw [he]
  cases extractUrl with
  | none =>
      intro h
      cases h
  | some url =>
      simp only [Config.checkProxyUrl]
      cases platform.parseUrl url with
      | ok _ =>
          intro h
          cases h
      | error e' =>
          intro h
          have htext := Except.error.inj h
          simp only [String.append_assoc] at htext
          exact search_ne_extract _ _ htext

/-! ## Start-up -/

theorem startUp_invalid {platform : Platform} {config : Config} {e : String}
    (h : config.validate platform = .error e) (build : Build) (command : Command) :
    startUp build platform command config = .error (.error e) := by
  rw [startUp.eq_def, h]
  rfl

/-- Where the text of no proxy is looked at, a blank one changes nothing. -/
theorem startUp_put_blank {setting : OptionalSetting} (hother : setting.isProxy = false)
    (config : Config) (build : Build) (platform : Platform) (command : Command) :
    startUp build platform command (setting.put (some "") config)
      = startUp build platform command (setting.put none config) := by
  cases setting with
  | redisUrl => rfl
  | corsOrigin => rfl
  | apiKey => rfl
  | searchUrl => cases hother
  | extractUrl => cases hother

theorem validate_put_blank {setting : OptionalSetting} (hother : setting.isProxy = false)
    (config : Config) (platform : Platform) :
    (setting.put (some "") config).validate platform
      = (setting.put none config).validate platform := by
  cases setting with
  | redisUrl => rfl
  | corsOrigin => rfl
  | apiKey => rfl
  | searchUrl => cases hother
  | extractUrl => cases hother

/-- No proxy asks a request for another key, and a blank key asks for none. -/
theorem checkApiKey_put_blank (setting : OptionalSetting) (config : Config)
    (provided : Option String) :
    checkApiKey (setting.put (some "") config).server.apiKey provided
      = checkApiKey (setting.put none config).server.apiKey provided := by
  cases setting <;> rfl

/-- An error of an earlier check is the error of both. -/
theorem blankIsUnset_of_error {platform : Platform} {setting : OptionalSetting}
    {config : Config} {e : String}
    (hall : ∀ value, (setting.put value config).validate platform = .error e) :
    BlankIsUnset platform setting config := by
  refine ⟨by rw [hall, hall], fun build command => ?_,
    fun provided => checkApiKey_put_blank setting config provided⟩
  rw [startUp_invalid (hall _), startUp_invalid (hall _)]

/-- The check of a proxy and those after it. -/
def OptionalSetting.check (platform : Platform) (setting : OptionalSetting)
    (value : Option String) (config : Config) : Except String Unit :=
  match setting with
  | searchUrl => do
      Config.checkProxyUrl platform value "proxy.search_url"
        "SERICA_PROXY__SEARCH_URL or [proxy].search_url"
      Config.checkProxyUrl platform config.proxy.extractUrl "proxy.extract_url"
        "SERICA_PROXY__EXTRACT_URL or [proxy].extract_url"
  | _ => Config.checkProxyUrl platform value "proxy.extract_url"
      "SERICA_PROXY__EXTRACT_URL or [proxy].extract_url"

theorem validate_put {setting : OptionalSetting} (hproxy : setting.isProxy = true)
    (config : Config) (platform : Platform) (value : Option String) :
    (setting.put value config).validate platform = (do
      (setting.checkedBefore config).validate platform
      setting.check platform value config) := by
  cases setting with
  | searchUrl => exact validate_proxies platform config value config.proxy.extractUrl
  | extractUrl =>
      show (withProxies config config.proxy.searchUrl value).validate platform
        = (withProxies config config.proxy.searchUrl none).validate platform >>= fun _ => _
      rw [validate_proxies, validate_proxies platform config config.proxy.searchUrl none]
      simp only [bind_assoc]
      rfl
  | redisUrl => cases hproxy
  | corsOrigin => cases hproxy
  | apiKey => cases hproxy

/-- The check of a proxy tells a blank one from none. -/
theorem check_blank_ne {platform : Platform} (hblank : RejectsBlank platform)
    {setting : OptionalSetting} (hproxy : setting.isProxy = true) (config : Config) :
    setting.check platform (some "") config ≠ setting.check platform none config := by
  cases setting with
  | searchUrl => exact blank_search_ne hblank config.proxy.extractUrl
  | extractUrl =>
      obtain ⟨e, he⟩ := checkProxyUrl_blank hblank "proxy.extract_url"
        "SERICA_PROXY__EXTRACT_URL or [proxy].extract_url"
      simp only [OptionalSetting.check]
      rw [he]
      exact fun h => nomatch h
  | redisUrl => cases hproxy
  | corsOrigin => cases hproxy
  | apiKey => cases hproxy

/-- **When a blank setting is an unset one**: always for the settings that are no proxy, and
for a proxy exactly when what is checked before it is not valid. -/
theorem blank_is_unset_iff {platform : Platform} (hblank : RejectsBlank platform)
    (setting : OptionalSetting) (config : Config) :
    BlankIsUnset platform setting config
      ↔ setting.isProxy = false
        ∨ ¬ (setting.checkedBefore config).Valid platform := by
  rw [← Config.validate_eq_ok_iff]
  by_cases hproxy : setting.isProxy = false
  · refine iff_of_true ⟨validate_put_blank hproxy config platform, ?_, ?_⟩ (Or.inl hproxy)
    · exact fun build command => startUp_put_blank hproxy config build platform command
    · exact fun provided => checkApiKey_put_blank setting config provided
  · rw [or_iff_right hproxy]
    have hsearch : setting.isProxy = true := by simpa using hproxy
    have hchecks := validate_put hsearch config platform
    cases hbefore : (setting.checkedBefore config).validate platform with
    -- Both configurations end with the error of the earlier check.
    | error e =>
        refine iff_of_true (blankIsUnset_of_error (e := e) fun value => ?_) (by simp)
        rw [hchecks, hbefore]
        rfl
    -- The check of the proxy is reached, and its errors differ.
    | ok _ =>
        refine iff_of_false (fun h => check_blank_ne hblank hsearch config ?_) (by simp)
        have hsame := h.1
        rw [hchecks, hchecks, hbefore] at hsame
        exact hsame

theorem blank_is_unset_default :
    BlankIsUnset Platform.ascii .searchUrl Config.default
      ↔ OptionalSetting.isProxy .searchUrl = false
        ∨ ¬ (OptionalSetting.checkedBefore .searchUrl Config.default).Valid Platform.ascii :=
  blank_is_unset_iff ⟨_, rfl⟩ .searchUrl Config.default

/-- A blank search proxy stops the default configuration. -/
theorem blank_search_rejected :
    ¬ ∀ (platform : Platform) (setting : OptionalSetting) (config : Config),
      RejectsBlank platform → BlankIsUnset platform setting config := by
  intro h
  have hsame := (h Platform.ascii .searchUrl Config.default ⟨_, rfl⟩).1
  have hdefault : Config.default.validate Platform.ascii = .ok () :=
    (Config.validate_eq_ok_iff _ _).mpr (Config.default_valid rfl)
  rw [show OptionalSetting.put .searchUrl none Config.default = Config.default from rfl,
    hdefault, Config.validate_eq_ok_iff] at hsame
  obtain ⟨parsed, hparsed⟩ := hsame.searchProxy "" rfl
  cases hparsed

end StartUp
