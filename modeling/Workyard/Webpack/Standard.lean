/-!
# The standard template of a webpack config

The template of the new config that is used where a workspace brings none of its own.
-/

namespace Workyard.Webpack

set_option autoImplicit false

/-- The name of the template of a webpack config. -/
def templateName : String := "webpack/webpack.config.js.tera"

/-- The lines of the standard template. -/
def standardLines : List String := [
  "const \x7b NxAppWebpackPlugin \x7d = require('@nx/webpack/app-plugin');",
  "const \x7b NxReactWebpackPlugin \x7d = require('@nx/react/webpack-plugin');",
  "const \x7b nxUseLegacyPlugin \x7d = require('@nx/webpack');",
  "",
  "// This file was migrated by conduit from your './\x7b\x7b legacy_file_name \x7d\x7d'",
  "// Please check that the options here are correct as they were moved from the old \x7b\x7b config_file_name \x7d\x7d to this file.",
  "const options = \x7b\x7b options_json \x7d\x7d;",
  "",
  "module.exports = async () => (\x7b",
  "  plugins: [",
  "\x7b%- if has_app_options %\x7d",
  "    new NxAppWebpackPlugin(options),",
  "\x7b%- else %\x7d",
  "    new NxAppWebpackPlugin(),",
  "\x7b%- endif %\x7d",
  "\x7b%- if react_options %\x7d",
  "    new NxReactWebpackPlugin(\x7b\x7b react_options \x7d\x7d),",
  "\x7b%- else %\x7d",
  "    new NxReactWebpackPlugin(\x7b",
  "      // Uncomment this line if you don't want to use SVGR",
  "      // See: https://react-svgr.com/",
  "      // svgr: false",
  "    \x7d),",
  "\x7b%- endif %\x7d",
  "    await nxUseLegacyPlugin(require('./\x7b\x7b legacy_module \x7d\x7d'), options),",
  "  ],",
  "\x7d);"]

def standardTemplate : String :=
  String.join (standardLines.map (· ++ "\n"))

end Workyard.Webpack
