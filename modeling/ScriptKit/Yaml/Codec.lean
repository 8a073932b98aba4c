import ScriptKit.Yaml.Compose
import ScriptKit.Yaml.Render

namespace ScriptKit.Yaml

/-- The library for documents that the tool is built with. -/
def codec : Codec := ⟨read, render⟩

end ScriptKit.Yaml
